import PhpSpx.Lib.Outcome
import PhpSpx.Reporter.Full
import PhpSpx.WebUi.ReportReader

/-!
# The names of the functions

The section `[functions]` of a report has one line for each entry of the function table, which the
page reads back by counting lines.  A name that is no line, or that is a header, is not read back.

* `functionsSection` — what `finalize` writes.
* `nameBuilder` — the builder, as far as names go.
* `function_names_survive_iff` — when the page gives every function its name.
-/

namespace PhpSpx.WebUi

open Lib (bind_eq_ok_iff cutLines feedChunk)

/-- The section `[functions]` of a report. -/
def functionsSection (functions : List PhpFunction) : CStr :=
  functionsHeader ++ functions.flatMap functionLine

/-- The section is what `finalize` writes. -/
example (reporter : FullReporter) (event : Event) (peakMemoryUsage : ℕ) :
    (reporter.finalize event peakMemoryUsage).output =
      reporter.output ++
        functionsSection (event.funcTable.entries.map fun entry => entry.function) := by
  rw [FullReporter.finalize, functionsSection, List.flatMap_map, List.append_assoc]

/-- `class::function`, or `function` when the class is empty. -/
def reportName (function : PhpFunction) : CStr :=
  function.className.toList ++ (if function.className.isEmpty then [] else "::".toList) ++
    function.funcName.toList

/-- The bytes of a text. -/
def textBytes (text : CStr) : List UInt8 := text.map fun c => UInt8.ofNat c.toNat

/-- A text of ASCII characters other than NUL. -/
def IsAscii (text : String) : Prop := ∀ c ∈ text.toList, 0 < c.toNat ∧ c.toNat < 0x80

theorem isAscii_of_all {text : String}
    (h : (text.toList.all fun c => 0 < c.toNat ∧ c.toNat < 0x80) = true) : IsAscii text :=
  fun c hc => of_decide_eq_true (List.all_eq_true.mp h c hc)

/-! ## The builder -/

/-- `ProfileDataBuilder`: the names of the functions, none for `undefined`, and the rest. -/
structure NamedData (γ : Type) where
  functionNames : ℕ → Option CStr
  rest : γ

/-- The names as `setMetadata` makes them. -/
def freshNames (calledFunctionCount : ℕ) : ℕ → Option CStr :=
  fun idx => if idx < calledFunctionCount then some "n/a".toList else none

variable {F γ : Type}

/-- The builder: `addEvent` does not touch the names, whatever it does to the rest. -/
def nameBuilder (addEvent : List F → γ → Option γ) : Builder F (NamedData γ)
  | .addEvent event, data => (addEvent event data.rest).map fun rest => { data with rest := rest }
  | .setFunctionName idx functionName, data =>
    some { data with functionNames := Function.update data.functionNames idx (some functionName) }

/-- A name that comes back: one line, and no header. -/
structure Survives (name : CStr) : Prop where
  line : '\n' ∉ name
  events : name ≠ "[events]".toList
  functions : name ≠ "[functions]".toList

/-! ## The section as lines -/

theorem decode_textBytes {text : CStr} (h : ∀ c ∈ text, c.toNat < 0x80) :
    decode (textBytes text) = text := by
  rw [decode, textBytes, List.map_map]
  conv_rhs => rw [← List.map_id text]
  apply List.map_congr_left
  intro c hc
  have hlt := h c hc
  have hbyte : (UInt8.ofNat c.toNat).toNat = c.toNat := by
    rw [UInt8.toNat_ofNat']
    exact Nat.mod_eq_of_lt (hlt.trans (by decide))
  rw [Function.comp_apply, decodeByte, hbyte, if_neg (Nat.not_le.mpr hlt), Char.ofNat_toNat]
  rfl

theorem functionLine_eq (function : PhpFunction) :
    functionLine function = reportName function ++ ['\n'] := rfl

/-- The characters of a section are those of the names and of the header. -/
theorem lt_of_mem_functionsSection {functions : List PhpFunction}
    (hascii : ∀ f ∈ functions, IsAscii f.className ∧ IsAscii f.funcName) :
    ∀ c ∈ functionsSection functions, c.toNat < 0x80 := by
  have hheader : (functionsHeader.all fun c => c.toNat < 0x80) = true := by decide
  have hcolons : ("::".toList.all fun c => c.toNat < 0x80) = true := by decide
  intro c hc
  rcases List.mem_append.mp hc with hc | hc
  · exact of_decide_eq_true (List.all_eq_true.mp hheader c hc)
  · obtain ⟨f, hf, hc⟩ := List.mem_flatMap.mp hc
    obtain ⟨hclass, hfunc⟩ := hascii f hf
    rw [functionLine_eq, reportName, List.mem_append, List.mem_append, List.mem_append,
      List.mem_singleton] at hc
    rcases hc with ((hc | hc) | hc) | rfl
    · exact (hclass c hc).2
    · split at hc
      · exact absurd hc List.not_mem_nil
      · exact of_decide_eq_true (List.all_eq_true.mp hcolons c hc)
    · exact (hfunc c hc).2
    · decide

/-- **The lines of a section**, when the names are lines. -/
theorem cutLines_functionsSection {functions : List PhpFunction}
    (hlines : ∀ f ∈ functions, '\n' ∉ reportName f) :
    cutLines '\n' [] (functionsSection functions) =
      ("[functions]".toList :: functions.map reportName, []) := by
  have hsection : functionsSection functions =
      ("[functions]".toList :: functions.map reportName).flatMap (· ++ ['\n']) := by
    rw [List.flatMap_cons, List.flatMap_map]
    rfl
  rw [hsection]
  apply Lib.cutLines_flatMap
  rw [List.forall_mem_cons]
  exact ⟨by decide, List.forall_mem_map.mpr hlines⟩

/-! ## Reading the section -/

section Reading

variable {parseFloat : List Char → F} {addEvent : List F → γ → Option γ}
  {r r' : Reading F (NamedData γ)}

/-- **What a line does**: it sets the next name, or it sets none. -/
theorem readLine_cases {line : List Char}
    (h : readLine parseFloat (nameBuilder addEvent) r line = .ok r') :
    (r.type = some .function ∧ line ≠ "[events]".toList ∧ line ≠ "[functions]".toList ∧
      r'.builder.functionNames =
        Function.update r.builder.functionNames r.currentFunctionIdx (some line)) ∨
    (r'.currentFunctionIdx = r.currentFunctionIdx ∧
      r'.builder.functionNames = r.builder.functionNames ∧
      (r'.type = some .function → r.type = some .function ∨ line = "[functions]".toList)) := by
  rw [readLine] at h
  split at h
  · cases h
    exact .inr ⟨rfl, rfl, fun htype => nomatch htype⟩
  · rename_i hevents
    split at h
    · rename_i hfunctions
      cases h
      exact .inr ⟨rfl, rfl, fun _ => .inr hfunctions⟩
    · rename_i hfunctions
      split at h
      · -- an event, which may throw
        rw [Reading.call, nameBuilder] at h
        dsimp only at h
        split at h
        · rename_i builder hbuilder
          cases h
          obtain ⟨rest, -, rfl⟩ := Option.map_eq_some_iff.mp hbuilder
          exact .inr ⟨rfl, rfl, .inl⟩
        · exact nomatch h
      · rename_i htype
        cases h
        exact .inl ⟨htype, hevents, hfunctions, rfl⟩
      · cases h
        exact .inr ⟨rfl, rfl, .inl⟩

/-- Every name that is known comes back. -/
def NamesSurvive (r : Reading F (NamedData γ)) : Prop :=
  ∀ idx name, r.builder.functionNames idx = some name → Survives name

/-- **A line** leaves only names that come back. -/
theorem NamesSurvive.readLine (h : NamesSurvive r) {line : List Char} (hline : '\n' ∉ line)
    (hread : readLine parseFloat (nameBuilder addEvent) r line = .ok r') : NamesSurvive r' := by
  intro idx name hname
  rcases readLine_cases hread with ⟨-, hevents, hfunctions, hnames⟩ | ⟨-, hnames, -⟩
  · rw [hnames] at hname
    by_cases hidx : idx = r.currentFunctionIdx
    · rw [hidx, Function.update_self] at hname
      cases hname
      exact ⟨hline, hevents, hfunctions⟩
    · rw [Function.update_of_ne hidx] at hname
      exact h idx name hname
  · rw [hnames] at hname
    exact h idx name hname

theorem NamesSurvive.readLines (h : NamesSurvive r) {lines : List (List Char)}
    (hlines : ∀ line ∈ lines, '\n' ∉ line)
    (hread : lines.foldlM (WebUi.readLine parseFloat (nameBuilder addEvent)) r = .ok r') :
    NamesSurvive r' := by
  induction lines generalizing r with
  | nil =>
    cases hread
    exact h
  | cons line lines ih =>
    obtain ⟨hfirst, hrest⟩ := List.forall_mem_cons.mp hlines
    obtain ⟨next, hnext, hend⟩ := bind_eq_ok_iff.mp hread
    exact ih (h.readLine hfirst hnext) hrest hend

/-- **Names that come back** are set one after the other. -/
theorem exists_read_names {names : List CStr} (hnames : ∀ name ∈ names, Survives name)
    (htype : r.type = some .function) :
    ∃ r', names.foldlM (readLine parseFloat (nameBuilder addEvent)) r = .ok r' ∧
      (∀ idx < r.currentFunctionIdx, r'.builder.functionNames idx = r.builder.functionNames idx) ∧
      ∀ i name, names[i]? = some name →
        r'.builder.functionNames (r.currentFunctionIdx + i) = some name := by
  induction names generalizing r with
  | nil => exact ⟨r, rfl, fun _ _ => rfl, fun _ _ h => nomatch h⟩
  | cons name names ih =>
    obtain ⟨hfirst, hrest⟩ := List.forall_mem_cons.mp hnames
    have hread : ∃ next, readLine parseFloat (nameBuilder addEvent) r name = .ok next ∧
        next.type = some .function ∧ next.currentFunctionIdx = r.currentFunctionIdx + 1 ∧
        next.builder.functionNames =
          Function.update r.builder.functionNames r.currentFunctionIdx (some name) := by
      rw [readLine, if_neg hfirst.events, if_neg hfirst.functions, htype]
      exact ⟨_, rfl, rfl, rfl, rfl⟩
    obtain ⟨next, hnext, htype', hidx, hupdate⟩ := hread
    obtain ⟨r', hr', hold, hnew⟩ := ih hrest htype'
    rw [hidx, hupdate] at hold
    rw [hidx] at hnew
    refine ⟨r', ?_, ?_, ?_⟩
    · rw [List.foldlM_cons, hnext]
      exact hr'
    · intro idx hlt
      rw [hold idx (Nat.lt_succ_of_lt hlt), Function.update_of_ne hlt.ne]
    · intro i other hother
      cases i with
      | zero =>
        cases hother
        rw [Nat.add_zero, hold _ (Nat.lt_succ_self _), Function.update_self]
      | succ i =>
        have h := hnew i other hother
        rwa [Nat.add_assoc, Nat.add_comm 1] at h

/-- **The lines before the section** set no name. -/
theorem names_of_read_events {lines : List (List Char)}
    (hlines : ∀ line ∈ lines, line ≠ "[functions]".toList) (htype : r.type ≠ some .function)
    (hread : lines.foldlM (readLine parseFloat (nameBuilder addEvent)) r = .ok r') :
    r'.currentFunctionIdx = r.currentFunctionIdx ∧
      r'.builder.functionNames = r.builder.functionNames := by
  induction lines generalizing r with
  | nil =>
    cases hread
    exact ⟨rfl, rfl⟩
  | cons line lines ih =>
    obtain ⟨hfirst, hrest⟩ := List.forall_mem_cons.mp hlines
    obtain ⟨next, hnext, hend⟩ := bind_eq_ok_iff.mp hread
    rcases readLine_cases hnext with ⟨hfunction, -⟩ | ⟨hidx, hnames, hkeep⟩
    · exact absurd hfunction htype
    · have htype' : next.type ≠ some .function := fun h => (hkeep h).elim htype hfirst
      obtain ⟨hidx', hnames'⟩ := ih hrest htype' hend
      exact ⟨hidx'.trans hidx, hnames'.trans hnames⟩

/-- **The section** gives every function its name exactly when the names survive. -/
theorem read_section_iff {functions : List PhpFunction} (hidx : r.currentFunctionIdx = 0)
    (hfresh : r.builder.functionNames = freshNames functions.length) :
    (∃ r', (cutLines '\n' [] (functionsSection functions)).1.foldlM
        (readLine parseFloat (nameBuilder addEvent)) r = .ok r' ∧
      ∀ i f, functions[i]? = some f → r'.builder.functionNames i = some (reportName f)) ↔
      ∀ f ∈ functions, Survives (reportName f) := by
  constructor
  · rintro ⟨r', hread, hnames⟩ f hf
    have hsurvive : NamesSurvive r := by
      intro idx name hname
      rw [hfresh, freshNames] at hname
      split at hname
      · cases hname
        exact ⟨by decide, by decide, by decide⟩
      · exact nomatch hname
    obtain ⟨i, hi⟩ := List.mem_iff_getElem?.mp hf
    have hend := hsurvive.readLines
      (fun line hline => Lib.notMem_of_mem_cutLines List.not_mem_nil hline) hread
    exact hend i (reportName f) (hnames i f hi)
  · intro hsurvive
    rw [cutLines_functionsSection fun f hf => (hsurvive f hf).line]
    dsimp only
    obtain ⟨r', hr', -, hnames⟩ := @exists_read_names F γ parseFloat addEvent
      { r with type := some .function } (functions.map reportName)
      (List.forall_mem_map.mpr hsurvive) rfl
    have hheader : readLine parseFloat (nameBuilder addEvent) r "[functions]".toList =
        .ok { r with type := some .function } := by
      rw [readLine, if_neg (by decide), if_pos rfl]
    refine ⟨r', ?_, ?_⟩
    · rw [List.foldlM_cons, hheader]
      exact hr'
    · intro i f hf
      have h := hnames i (reportName f) (by rw [List.getElem?_map, hf]; rfl)
      rwa [hidx, Nat.zero_add] at h

end Reading

/-- **Function names survive the report** exactly when each is one line and no header: `lines`
are those before the section, all of which are read. -/
theorem function_names_survive_iff (parseFloat : List Char → F)
    (addEvent : List F → γ → Option γ) {functions : List PhpFunction}
    (hascii : ∀ f ∈ functions, IsAscii f.className ∧ IsAscii f.funcName)
    {lines : List CStr} (hlines : ∀ line ∈ lines, '\n' ∉ line ∧ line ≠ "[functions]".toList)
    {rest : γ} {r : Reading F (NamedData γ)}
    (hread : lines.foldlM (readLine parseFloat (nameBuilder addEvent))
      (ReportPage.start ⟨freshNames functions.length, rest⟩).1 = .ok r)
    {events : List UInt8} (hevents : decode events = lines.flatMap (· ++ ['\n']))
    {buffers : List (List UInt8)}
    (hbuffers : buffers.flatten = events ++ textBytes (functionsSection functions)) :
    (∃ page, readBuffers parseFloat (nameBuilder addEvent)
        (.start ⟨freshNames functions.length, rest⟩) buffers = .ok page ∧
      ∀ i f, functions[i]? = some f → page.1.builder.functionNames i = some (reportName f)) ↔
      ∀ f ∈ functions, Survives (reportName f) := by
  have hstart : (none : Option Section) ≠ some .function := by decide
  obtain ⟨hidx, hnames⟩ :=
    names_of_read_events (fun line hline => (hlines line hline).2) hstart hread
  rw [← @read_section_iff F γ parseFloat addEvent r functions hidx hnames]
  have hdecode : decode buffers.flatten =
      lines.flatMap (· ++ ['\n']) ++ functionsSection functions := by
    have hsection := decode_textBytes (lt_of_mem_functionsSection hascii)
    rw [hbuffers, ← hevents]
    conv_rhs => rw [← hsection]
    exact List.map_append
  have hcut := Lib.cutLines_flatMap fun line hline => (hlines line hline).1
  have hall : readBuffers parseFloat (nameBuilder addEvent)
      (.start ⟨freshNames functions.length, rest⟩) buffers =
        (fun s => (s, (cutLines '\n' [] (functionsSection functions)).2)) <$>
          (cutLines '\n' [] (functionsSection functions)).1.foldlM
            (readLine parseFloat (nameBuilder addEvent)) r := by
    rw [readBuffers_eq_feedChunk, hdecode, feedChunk]
    change _ <$> (cutLines '\n' [] _).1.foldlM _ _ = _
    rw [ReportPage.start] at hread ⊢
    dsimp only at hread ⊢
    rw [Lib.cutLines_append, hcut]
    dsimp only
    rw [List.foldlM_append, hread]
    rfl
  rw [hall]
  constructor
  · rintro ⟨page, hpage, hpageNames⟩
    cases hsection : (cutLines '\n' [] (functionsSection functions)).1.foldlM
        (readLine parseFloat (nameBuilder addEvent)) r with
    | error e =>
      rw [hsection] at hpage
      cases hpage
    | ok r' =>
      rw [hsection] at hpage
      cases hpage
      exact ⟨r', rfl, hpageNames⟩
  · rintro ⟨r', hsection, hsectionNames⟩
    rw [hsection]
    exact ⟨_, rfl, hsectionNames⟩

/-- A script and a method. -/
def scriptAndMethod : List PhpFunction := [⟨"/srv/index.php", ""⟩, ⟨"run", "App"⟩]

/-- The names of a script and a method are read back. -/
theorem function_names_survive_iff_method :
    ∃ page, readBuffers id (nameBuilder fun _ => some) (.start ⟨freshNames 2, ()⟩)
        [textBytes eventsHeader, textBytes (functionsSection scriptAndMethod)] = .ok page ∧
      page.1.builder.functionNames 0 = some "/srv/index.php".toList ∧
      page.1.builder.functionNames 1 = some "App::run".toList := by
  have hsurvive : ∀ f ∈ scriptAndMethod, Survives (reportName f) := by
    rw [scriptAndMethod, List.forall_mem_cons, List.forall_mem_singleton]
    exact ⟨⟨by decide, by decide, by decide⟩, ⟨by decide, by decide, by decide⟩⟩
  have hascii : ∀ f ∈ scriptAndMethod, IsAscii f.className ∧ IsAscii f.funcName := by
    rw [scriptAndMethod, List.forall_mem_cons, List.forall_mem_singleton]
    exact ⟨⟨isAscii_of_all (by decide), isAscii_of_all (by decide)⟩,
      ⟨isAscii_of_all (by decide), isAscii_of_all (by decide)⟩⟩
  obtain ⟨page, hpage, hnames⟩ := (@function_names_survive_iff (List Char) Unit id
    (fun _ => some) scriptAndMethod hascii ["[events]".toList] (by decide) () _ rfl
    (textBytes eventsHeader) rfl
    [textBytes eventsHeader, textBytes (functionsSection scriptAndMethod)] rfl).mpr hsurvive
  exact ⟨page, hpage, hnames 0 _ rfl, hnames 1 _ rfl⟩

/-- A script whose path has a line break, and a function. -/
def brokenPath : List PhpFunction := [⟨"/srv/a\nb.php", ""⟩, ⟨"f", ""⟩]

/-- The name of the script is cut, and the function gets the rest of it. -/
theorem function_names_shifted :
    (∀ f ∈ brokenPath, IsAscii f.className ∧ IsAscii f.funcName) ∧
      ∃ page, readBuffers id (nameBuilder fun _ => some) (.start ⟨freshNames 2, ()⟩)
          [textBytes eventsHeader, textBytes (functionsSection brokenPath)] = .ok page ∧
        page.1.builder.functionNames 0 = some "/srv/a".toList ∧
        page.1.builder.functionNames 1 = some "b.php".toList ∧
        page.1.builder.functionNames 2 = some "f".toList := by
  refine ⟨?_, _, rfl, rfl, rfl, rfl⟩
  rw [brokenPath, List.forall_mem_cons, List.forall_mem_singleton]
  exact ⟨⟨isAscii_of_all (by decide), isAscii_of_all (by decide)⟩,
    ⟨isAscii_of_all (by decide), isAscii_of_all (by decide)⟩⟩

end PhpSpx.WebUi
