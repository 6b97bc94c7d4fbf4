import PhpSpx.Lib.Json
import PhpSpx.Text.CString

/-!
# The list of reports

The answer to `/data/reports/metadata` of `http_ui_handler_data`: the metadata files of
the data directory, as `spx_reporter_full_metadata_list_files` finds them, with commas
between them.  File contents are bytes, each written as the character with that code.
-/

namespace PhpSpx.WebUi

open Lib Lib.Json

/-- The data directory as the handler finds it: the names `readdir` gives, if it can be
opened, and the content of each file that can be opened. -/
structure DataDir where
  name : CStr
  opendir : Option (List CStr)
  fopen : CStr → Option (List Char)
  pathMax : ℕ

/-- `spx_utils_str_ends_with`. -/
def strEndsWith (str suffix : CStr) : Bool :=
  if str.length < suffix.length then false
  else decide (str.drop (str.length - suffix.length) = suffix)

/-- The size of the buffer of `read_stream_content`. -/
def streamBufferSize : ℕ := 8 * 1024

/-- `read_stream_content`: what is written, buffer by buffer. -/
def readStreamContent (stream : List Char) : List Char :=
  if stream.length < streamBufferSize then stream
  else stream.take streamBufferSize ++ readStreamContent (stream.drop streamBufferSize)
termination_by stream.length
decreasing_by
  rw [List.length_drop]
  have : 0 < streamBufferSize := by decide
  omega

/-- `http_ui_handler_list_metadata_files_callback`: what is written for a file, the
comma before anything else. -/
def listMetadataFilesCallback (dir : DataDir) (fileName : CStr) (count : ℕ) : List Char :=
  (if count > 0 then [','] else []) ++
    match dir.fopen fileName with
    | none => []
    | some content => readStreamContent content

/-- The path of an entry, cut to the size of its buffer. -/
def DataDir.filePath (dir : DataDir) (entry : CStr) : CStr :=
  (dir.name ++ '/' :: entry).take (dir.pathMax - 1)

/-- The entries the loop does not skip. -/
def isJsonFile (entry : CStr) : Bool := strEndsWith entry ".json".toList

/-- The loop of `spx_reporter_full_metadata_list_files`: what the callback writes, and the
count of the entries. -/
def metadataListLoop (dir : DataDir) : List CStr → ℕ → List Char × ℕ
  | [], count => ([], count)
  | entry :: entries, count =>
    if isJsonFile entry then
      let written := listMetadataFilesCallback dir (dir.filePath entry) count
      let r := metadataListLoop dir entries (count + 1)
      (written ++ r.1, r.2)
    else metadataListLoop dir entries count

/-- `spx_reporter_full_metadata_list_files`. -/
def metadataListFiles (dir : DataDir) : List Char × ℕ :=
  match dir.opendir with
  | none => ([], 0)
  | some entries => metadataListLoop dir entries 0

/-- A response: its header lines and its body. -/
structure Response where
  headers : List String
  body : List Char

/-- `http_ui_handler_data` for `/data/reports/metadata`. -/
def httpUiHandlerReportsMetadata (dir : DataDir) : Response where
  headers := ["HTTP/1.1 200 OK", "Content-Type: application/json"]
  body := "\x7b\"results\": [\n".toList ++ (metadataListFiles dir).1 ++ "]\x7d\n".toList

/-! ## What is written -/

theorem readStreamContent_eq (stream : List Char) : readStreamContent stream = stream := by
  fun_induction readStreamContent stream with
  | case1 => rfl
  | case2 stream _ ih => rw [ih, List.take_append_drop]

/-- The `.json` entries, in the order of the directory. -/
def DataDir.jsonEntries (dir : DataDir) : List CStr :=
  (dir.opendir.getD []).filter isJsonFile

/-- The content of an entry, if it can be opened. -/
def DataDir.content (dir : DataDir) (entry : CStr) : Option (List Char) :=
  dir.fopen (dir.filePath entry)

/-- The contents of the readable `.json` files. -/
def DataDir.readable (dir : DataDir) : List (List Char) := dir.jsonEntries.filterMap dir.content

/-- What is written for each `.json` entry besides commas. -/
def DataDir.pieces (dir : DataDir) : List (List Char) :=
  dir.jsonEntries.map fun entry => (dir.content entry).getD []

theorem callback_eq (dir : DataDir) (entry : CStr) (count : ℕ) :
    listMetadataFilesCallback dir (dir.filePath entry) count =
      (if count > 0 then [','] else []) ++ (dir.content entry).getD [] := by
  rw [listMetadataFilesCallback, DataDir.content]
  cases dir.fopen (dir.filePath entry) with
  | none => rfl
  | some content => simp only [readStreamContent_eq, Option.getD_some]

/-- Every entry after the first one begins with a comma. -/
theorem metadataListLoop_fst (dir : DataDir) (entries : List CStr) (count : ℕ) :
    (metadataListLoop dir entries count).1 =
      if count > 0 then
        ((entries.filter isJsonFile).map fun entry =>
          (dir.content entry).getD []).flatMap (',' :: ·)
      else
        commaSeparated ((entries.filter isJsonFile).map fun entry =>
          (dir.content entry).getD []) := by
  induction entries generalizing count with
  | nil => simp [metadataListLoop, commaSeparated]
  | cons entry entries ih =>
    rw [metadataListLoop]
    by_cases hjson : isJsonFile entry = true
    · rw [if_pos hjson, List.filter_cons_of_pos hjson, List.map_cons]
      simp only [ih, callback_eq, Nat.succ_pos, if_true]
      split
      · simp
      · simp [commaSeparated]
    · rw [if_neg hjson, List.filter_cons_of_neg hjson, ih]

theorem metadataListFiles_fst (dir : DataDir) :
    (metadataListFiles dir).1 = commaSeparated dir.pieces := by
  rw [metadataListFiles, DataDir.pieces, DataDir.jsonEntries]
  cases dir.opendir with
  | none => rfl
  | some entries =>
    rw [metadataListLoop_fst]
    rfl

/-! ## Validity -/

/-- The body is an object whose `results` are the values of the contents, in order. -/
def ListsReports (body : List Char) (contents : List (List Char)) : Prop :=
  ∃ vs, List.Forall₂ Json.IsText contents vs ∧
    Json.IsText body (.object [("results".toList.map .byte, .array vs)])

theorem blank_newline : Blank ['\n'] := by
  intro c hc
  rw [List.mem_singleton.mp hc]
  rfl

theorem body_eq (dir : DataDir) :
    (httpUiHandlerReportsMetadata dir).body =
      "\x7b\"results\": [".toList ++ (['\n'] ++ commaSeparated dir.pieces ++ "]\x7d\n".toList) := by
  have hopening : "\x7b\"results\": [\n".toList = "\x7b\"results\": [".toList ++ ['\n'] := by decide
  rw [httpUiHandlerReportsMetadata, metadataListFiles_fst, hopening, List.append_assoc,
    List.append_assoc, List.append_assoc]

/-- With nothing missing between its commas the body is an object with the results. -/
theorem isText_body {dir : DataDir} {vs : List Value}
    (hsame : commaSeparated dir.pieces = commaSeparated dir.readable)
    (hvs : List.Forall₂ IsText dir.readable vs) :
    IsText (httpUiHandlerReportsMetadata dir).body
      (.object [("results".toList.map .byte, .array vs)]) := by
  have hletters : "results".toList = ['r', 'e', 's', 'u', 'l', 't', 's'] := by decide
  have hplain : ∀ c ∈ "results".toList, 0x20 ≤ c.toNat ∧ c ≠ '"' ∧ c ≠ '\\' := by
    rw [hletters]
    simp
  have hkey := isString_of_plain hplain
  have hnone : Blank [] := fun c hc => absurd hc List.not_mem_nil
  have hspace : Blank [' '] := by
    intro c hc
    rw [List.mem_singleton.mp hc]
    rfl
  have harray := IsText.mk hspace (isValue_array blank_newline hvs) hnone
  have hobject := IsValue.object (.one hnone hkey hnone harray)
  have htext := IsText.mk hnone hobject blank_newline
  have hopening : "\x7b\"results\": [".toList =
      '\x7b' :: '"' :: ("results".toList ++ ['"', ':', ' ', '[']) := by decide
  have hclosing : "]\x7d\n".toList = [']', '\x7d', '\n'] := by decide
  rw [body_eq, hopening, hclosing, hsame]
  generalize "results".toList = key at htext ⊢
  simpa using htext

/-- The pieces are the contents when every file can be opened. -/
theorem pieces_eq_readable {dir : DataDir}
    (hopen : ∀ entry ∈ dir.jsonEntries, (dir.content entry).isSome = true) :
    dir.pieces = dir.readable := by
  rw [DataDir.pieces, DataDir.readable]
  generalize dir.jsonEntries = entries at hopen ⊢
  induction entries with
  | nil => rfl
  | cons entry entries ih =>
    obtain ⟨content, hcontent⟩ := Option.isSome_iff_exists.mp (hopen entry List.mem_cons_self)
    rw [List.map_cons, List.filterMap_cons_some hcontent, hcontent, Option.getD_some,
      ih fun entry' hentry' => hopen entry' (List.mem_cons_of_mem _ hentry')]

/-- A single entry that cannot be opened leaves nothing behind. -/
theorem readable_eq_nil {dir : DataDir} (hlen : dir.jsonEntries.length ≤ 1)
    (hopen : ¬∀ entry ∈ dir.jsonEntries, (dir.content entry).isSome = true) :
    dir.pieces = [[]] ∧ dir.readable = [] := by
  rw [DataDir.pieces, DataDir.readable]
  generalize dir.jsonEntries = entries at hlen hopen ⊢
  match entries, hlen with
  | [], _ => exact absurd (fun entry h => absurd h List.not_mem_nil) hopen
  | [entry], _ =>
    have hnone : dir.content entry = none := by simpa using hopen
    simp [hnone]

/-- A piece is missing or a JSON text. -/
theorem scans_pieces {dir : DataDir} (hcontents : ∀ content ∈ dir.readable, ∃ v, IsText content v)
    {t : List Char} (ht : t ∈ dir.pieces) : t = [] ∨ Scans t := by
  obtain ⟨entry, hentry, rfl⟩ := List.mem_map.mp ht
  cases hcontent : dir.content entry with
  | none => exact .inl rfl
  | some content =>
    obtain ⟨v, hv⟩ := hcontents content (List.mem_filterMap.mpr ⟨entry, hentry, hcontent⟩)
    exact .inr hv.scans

/-- A missing piece among others makes the body no JSON text. -/
theorem not_listsReports_of_missing {dir : DataDir}
    (hcontents : ∀ content ∈ dir.readable, ∃ v, IsText content v)
    (hlen : 2 ≤ dir.jsonEntries.length) (hmissing : [] ∈ dir.pieces) :
    ¬ListsReports (httpUiHandlerReportsMetadata dir).body dir.readable := by
  rintro ⟨vs, -, hbody⟩
  have hlen' : 2 ≤ dir.pieces.length := by rwa [DataDir.pieces, List.length_map]
  have hstart : scan (.outside ' ') "\x7b\"results\": [".toList = some (.outside '[') := by
    decide
  obtain ⟨c, -, hscan⟩ := hbody.scans ' '
  rw [body_eq, scan_append, hstart, Option.bind_some, List.append_assoc, scan_append,
    scan_blank blank_newline, Option.bind_some] at hscan
  have hstop := scan_missing hlen' hmissing (fun t ht => scans_pieces hcontents ht)
    ['\x7d', '\n']
  have hclosing : "]\x7d\n".toList = [']', '\x7d', '\n'] := by decide
  rw [hclosing, hstop] at hscan
  exact nomatch hscan

/-- **The report list is valid JSON** exactly when every metadata file can be opened or
there is at most one: a file that cannot be opened leaves its comma behind. -/
theorem report_list_valid_iff (dir : DataDir)
    (hcontents : ∀ content ∈ dir.readable, ∃ v, IsText content v) :
    ListsReports (httpUiHandlerReportsMetadata dir).body dir.readable ↔
      (∀ entry ∈ dir.jsonEntries, (dir.content entry).isSome = true) ∨
        dir.jsonEntries.length ≤ 1 := by
  obtain ⟨vs, hvs⟩ := exists_forall₂_isText hcontents
  constructor
  · intro hlists
    by_contra hnot
    obtain ⟨hsome, hmany⟩ := not_or.mp hnot
    simp only [not_forall, Bool.not_eq_true, Option.isSome_eq_false_iff, Option.isNone_iff_eq_none]
      at hsome
    obtain ⟨entry, hentry, hnone⟩ := hsome
    have hmissing : [] ∈ dir.pieces := List.mem_map.mpr ⟨entry, hentry, by rw [hnone]; rfl⟩
    exact not_listsReports_of_missing hcontents (Nat.lt_of_not_le hmany) hmissing hlists
  · intro hcase
    refine ⟨vs, hvs, ?_⟩
    apply isText_body ?_ hvs
    by_cases hopen : ∀ entry ∈ dir.jsonEntries, (dir.content entry).isSome = true
    · rw [pieces_eq_readable hopen]
    · obtain ⟨hpieces, hreadable⟩ := readable_eq_nil (hcase.resolve_left hopen) hopen
      rw [hpieces, hreadable]
      rfl

/-- A data directory with two metadata files, the first of which cannot be opened. -/
def dirWithUnreadable : DataDir where
  name := ['d']
  opendir := some [['a', '.', 'j', 's', 'o', 'n'], ['b', '.', 'j', 's', 'o', 'n']]
  fopen := fun path => if path = ['d', '/', 'b', '.', 'j', 's', 'o', 'n'] then some ['1'] else none
  pathMax := 4096

/-- A digit is a text of JSON. -/
theorem isText_digit {c : Char} (hc : c.isDigit = true) : IsText [c] (.number [c]) := by
  have hnone : Blank [] := fun c hc => absurd hc List.not_mem_nil
  have hdigits : IsDigits [c] := ⟨List.cons_ne_nil _ _, by simpa using hc⟩
  have hzero : [c] = ['0'] ∨ [c].head? ≠ some '0' := by
    rcases eq_or_ne c '0' with rfl | hne
    · exact .inl rfl
    · exact .inr fun h => hne (Option.some.inj h)
  exact .mk hnone (.number (.mk (.inl rfl) hdigits hzero (.inl rfl) (.inl rfl))) hnone

/-- With the first of two files unreadable the array of results begins with a comma. -/
theorem report_list_broken :
    ¬∀ dir : DataDir, (∀ content ∈ dir.readable, ∃ v, IsText content v) →
      ListsReports (httpUiHandlerReportsMetadata dir).body dir.readable := by
  intro h
  have hreadable : dirWithUnreadable.readable = [['1']] := by decide
  have hcontents : ∀ content ∈ dirWithUnreadable.readable, ∃ v, IsText content v := by
    intro content hcontent
    rw [hreadable, List.mem_singleton] at hcontent
    exact ⟨_, hcontent ▸ isText_digit (by decide)⟩
  exact not_listsReports_of_missing hcontents (by decide) (by decide)
    (h dirWithUnreadable hcontents)

/-- A data directory with two metadata files and one that is none. -/
def dirWithTwo : DataDir where
  name := ['d']
  opendir := some
    [['a', '.', 'j', 's', 'o', 'n'], ['a', '.', 't', 'x', 't'], ['b', '.', 'j', 's', 'o', 'n']]
  fopen := fun path =>
    if path = ['d', '/', 'a', '.', 'j', 's', 'o', 'n'] then some ['0'] else some ['1']
  pathMax := 4096

/-- Both are listed, with a comma between them. -/
theorem report_list_valid_two :
    dirWithTwo.readable = [['0'], ['1']] ∧
      (httpUiHandlerReportsMetadata dirWithTwo).body =
        "\x7b\"results\": [\n".toList ++ ['0', ',', '1'] ++ "]\x7d\n".toList ∧
      ListsReports (httpUiHandlerReportsMetadata dirWithTwo).body dirWithTwo.readable := by
  have hreadable : dirWithTwo.readable = [['0'], ['1']] := by decide
  refine ⟨hreadable, ?_, (report_list_valid_iff dirWithTwo ?_).mpr (.inl (by decide))⟩
  · have hpieces : dirWithTwo.pieces = [['0'], ['1']] := by decide
    simp only [httpUiHandlerReportsMetadata, metadataListFiles_fst, hpieces]
    rfl
  · intro content hcontent
    rw [hreadable] at hcontent
    rcases List.mem_pair.mp hcontent with rfl | rfl
    · exact ⟨_, isText_digit (by decide)⟩
    · exact ⟨_, isText_digit (by decide)⟩

end PhpSpx.WebUi
