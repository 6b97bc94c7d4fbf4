import PhpSpx.Lib.Lines
import PhpSpx.Text.CString

/-!
# Reading a report in the web UI

`readBuffer` of `report.html`: the events and the names of the functions of a report,
which arrives in buffers cut anywhere.

`parseFloat` is a parameter, and so are the two methods of the profile data builder,
either of which may throw.
-/

namespace PhpSpx.WebUi

open Lib (feedChunk)

/-! ## The text of a buffer -/

/-- The characters `new TextDecoder('ascii')`, which is windows-1252, gives the bytes from
0x80 to 0x9F. -/
def windows1252Index : List ℕ :=
  [0x20AC, 0x81, 0x201A, 0x192, 0x201E, 0x2026, 0x2020, 0x2021,
    0x2C6, 0x2030, 0x160, 0x2039, 0x152, 0x8D, 0x17D, 0x8F,
    0x90, 0x2018, 0x2019, 0x201C, 0x201D, 0x2022, 0x2013, 0x2014,
    0x2DC, 0x2122, 0x161, 0x203A, 0x153, 0x9D, 0x17E, 0x178]

/-- One byte decoded. -/
def decodeByte (b : UInt8) : Char :=
  if 0x80 ≤ b.toNat then Char.ofNat (windows1252Index.getD (b.toNat - 0x80) b.toNat)
  else Char.ofNat b.toNat

/-- `decoder.decode(buffer)`. -/
def decode (buffer : List UInt8) : List Char := buffer.map decodeByte

/-! ## The page -/

/-- `type`. -/
inductive Section where
  | event
  | function
  deriving DecidableEq, Repr

/-- A call of a method of the profile data builder. -/
inductive BuilderCall (F : Type) where
  | addEvent (event : List F)
  | setFunctionName (idx : ℕ) (functionName : List Char)
  deriving DecidableEq, Repr

/-- The profile data builder: what a call leaves, or nothing when it throws. -/
abbrev Builder (F β : Type) := BuilderCall F → β → Option β

/-- The variables the lines of a report change: `type`, `currentFunctionIdx` and the
builder, with the calls made of it. -/
structure Reading (F β : Type) where
  type : Option Section
  currentFunctionIdx : ℕ
  builder : β
  calls : List (BuilderCall F)

/-- The variables of `readBuffer`: those above and `lastTruncatedLine`. -/
abbrev ReportPage (F β : Type) := Reading F β × List Char

section

variable {F β : Type} (parseFloat : List Char → F) (build : Builder F β)

/-- The page as it is when the report begins to arrive. -/
def ReportPage.start (builder : β) : ReportPage F β := (⟨none, 0, builder, []⟩, [])

/-- A call of the builder.  An exception leaves the page as it is then. -/
def Reading.call (r : Reading F β) (c : BuilderCall F) : Except (Reading F β) (Reading F β) :=
  let r := { r with calls := r.calls ++ [c] }
  match build c r.builder with
  | some builder => .ok { r with builder }
  | none => .error r

/-- The body of the loop of `readBuffer`. -/
def readLine (r : Reading F β) (line : List Char) : Except (Reading F β) (Reading F β) :=
  if line = "[events]".toList then .ok { r with type := some .event }
  else if line = "[functions]".toList then .ok { r with type := some .function }
  else
    match r.type with
    | some .event => r.call build (.addEvent ((line.splitOn ' ').map parseFloat))
    | some .function =>
      { r with currentFunctionIdx := r.currentFunctionIdx + 1 }.call build
        (.setFunctionName r.currentFunctionIdx line)
    | none => .ok r

/-- `readBuffer`. -/
def readBuffer (page : ReportPage F β) (buffer : List UInt8) :
    Except (Reading F β) (ReportPage F β) :=
  if buffer.length = 0 then .ok page
  else
    let lines := ((decode buffer).splitOn '\n').modifyHead (page.2 ++ ·)
    let lastTruncatedLine := lines.getLast?.getD []
    (lines.dropLast.foldlM (readLine parseFloat build) page.1).map
      fun reading => (reading, lastTruncatedLine)

/-- The buffers of a report, one after the other; an exception ends the reading. -/
def readBuffers (page : ReportPage F β) (buffers : List (List UInt8)) :
    Except (Reading F β) (ReportPage F β) :=
  buffers.foldlM (readBuffer parseFloat build) page

/-- What a report amounts to: its newline-terminated lines, in order. -/
def readLines (r : Reading F β) (bytes : List UInt8) : Except (Reading F β) (Reading F β) :=
  ((decode bytes).splitOn '\n').dropLast.foldlM (readLine parseFloat build) r

/-! ## Buffers -/

/-- A buffer, empty or not, is a chunk of the text. -/
theorem readBuffer_eq_feedChunk (page : ReportPage F β) (buffer : List UInt8) :
    readBuffer parseFloat build page buffer =
      feedChunk '\n' (readLine parseFloat build) page (decode buffer) := by
  rw [readBuffer]
  split
  · rename_i hempty
    rw [List.length_eq_zero_iff.mp hempty]
    rfl
  · simp only [Lib.cutLines_eq_splitOn, List.dropLast_concat, List.getLast?_concat]
    rfl

theorem readBuffers_eq_feedChunk (page : ReportPage F β) (buffers : List (List UInt8)) :
    readBuffers parseFloat build page buffers =
      feedChunk '\n' (readLine parseFloat build) page (decode buffers.flatten) := by
  have hchunks : readBuffers parseFloat build page buffers =
      (buffers.map decode).foldlM (feedChunk '\n' (readLine parseFloat build)) page := by
    rw [readBuffers, List.foldlM_map]
    congr
    funext page buffer
    exact readBuffer_eq_feedChunk parseFloat build page buffer
  rw [hchunks, Lib.foldlM_chunks, decode, List.map_flatten]
  rfl

/-- **Report decoding does not depend on chunking**: the builder is called as for the
newline-terminated lines of the whole report, whatever buffers it arrives in. -/
theorem readBuffers_chunking (builder : β) (buffers buffers' : List (List UInt8))
    (h : buffers.flatten = buffers'.flatten) :
    (fun page : ReportPage F β => page.1) <$>
          readBuffers parseFloat build (.start builder) buffers =
        readLines parseFloat build (ReportPage.start builder).1 buffers.flatten ∧
      readBuffers parseFloat build (.start builder) buffers =
        readBuffers parseFloat build (.start builder) buffers' := by
  constructor
  · rw [readBuffers_eq_feedChunk, Lib.fst_feedChunk, readLines, ← Lib.cutLines_nil_fst]
    rfl
  · rw [readBuffers_eq_feedChunk, readBuffers_eq_feedChunk, h]

end

/-- A builder that keeps nothing and never throws. -/
def silentBuilder (F : Type) : Builder F Unit := fun _ _ => some ()

/-- ASCII text as bytes. -/
def asciiBytes (text : String) : List UInt8 := text.toList.map fun c => UInt8.ofNat c.toNat

/-- An event and the name of a function, cut within a header, a line and a name. -/
theorem readBuffers_chunking_short :
    let pieces := ["[eve", "", "nts]\n0 1", " 7\n[functions]\nma", "in\n"].map asciiBytes
    let whole := asciiBytes "[events]\n0 1 7\n[functions]\nmain\n"
    pieces.flatten = [whole].flatten ∧
      (readLines id (silentBuilder _) (ReportPage.start ()).1 whole).map (·.calls) =
        .ok [.addEvent [['0'], ['1'], ['7']], .setFunctionName 0 "main".toList] ∧
      readBuffers id (silentBuilder _) (.start ()) pieces =
        readBuffers id (silentBuilder _) (.start ()) [whole] := by
  intro pieces whole
  have hflat : pieces.flatten = [whole].flatten := by decide
  exact ⟨hflat, rfl, (readBuffers_chunking _ _ _ pieces [whole] hflat).2⟩

end PhpSpx.WebUi
