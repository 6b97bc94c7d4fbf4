import PhpSpx.Lib.Walk
import PhpSpx.Text.CString

/-!
# Path validation

`spx_validate_path` of `spx_security_validation.c`, which stands between the key of a report
and the files of the data directory.  The file system is a set of functions, one for each call
made of it.

* `Inside` — a stored path leads to the real base directory or below.
* `inside_of_checkResolved` — a path that has been resolved is checked.
* `validate_path_confined_iff` — when every path that is accepted is confined.
-/

namespace PhpSpx

open Lib

/-! ## Data -/

/-- `spx_path_flags_t`.  `allowRelative` is not read. -/
structure PathFlags where
  allowRelative : Bool
  allowSymlinks : Bool
  mustExist : Bool
  mustBeDir : Bool
  mustBeFile : Bool

/-- The failures of `spx_validate_result_t` that `spx_validate_path` returns. -/
inductive ValidateResult where
  | nullInput
  | tooLong
  | invalidFormat
  deriving DecidableEq, Repr

/-- The error codes that `spx_validate_path` sets. -/
inductive PathErrorCode where
  | invalidInput
  | fileNotFound
  | pathTraversal
  | internal
  deriving DecidableEq, Repr

/-- A failed validation: the result returned and the `spx_error_t` filled in. -/
structure PathFailure where
  result : ValidateResult
  code : PathErrorCode
  message : String
  deriving DecidableEq, Repr

/-- The type of a file, as `st_mode` tells it. -/
inductive FileType where
  | directory
  | regular
  | other
  deriving DecidableEq, Repr

/-- The answers of the file system, `none` for a failure.  `openNofollow` is
`open(path, O_RDONLY | O_NOFOLLOW)`, with `O_DIRECTORY` when its first argument is set: the
error number, or what the link of the descriptor under `/proc/self/fd` reads. -/
structure FileSystem where
  stat : CStr → Option FileType
  openNofollow : Bool → CStr → Except ℕ (Option CStr)
  realpath : CStr → Option CStr

/-- What differs between platforms. -/
structure Platform where
  linux : Bool
  pathMax : ℕ
  eloop : ℕ
  emlink : ℕ

/-! ## `spx_validate_path` -/

section Validate

variable (platform : Platform) (fs : FileSystem)

/-- The text of a path in a message. -/
def pathMessage (before : String) (path : CStr) : String := before ++ String.ofList path

/-- What `strncpy` leaves in `resolved_path`. -/
def storePath (resolvedPathSize : ℕ) (path : CStr) : CStr := path.take (resolvedPathSize - 1)

/-- The checks of a path that must exist. -/
def checkExisting (path realPath : CStr) (flags : PathFlags) : Except PathFailure Unit :=
  if flags.mustExist = false then .ok ()
  else
    match fs.stat realPath with
    | none =>
      .error ⟨.invalidFormat, .fileNotFound, pathMessage "Path does not exist: " path⟩
    | some type =>
      if flags.mustBeDir = true ∧ type ≠ .directory then
        .error ⟨.invalidFormat, .invalidInput, pathMessage "Path is not a directory: " path⟩
      else if flags.mustBeFile = true ∧ type ≠ .regular then
        .error ⟨.invalidFormat, .invalidInput, pathMessage "Path is not a file: " path⟩
      else .ok ()

/-- What follows the resolution in `spx_validate_path`. -/
def checkResolved (path baseDir realPath : CStr) (flags : PathFlags) (resolvedPathSize : ℕ) :
    Except PathFailure CStr :=
  match fs.realpath baseDir with
  | none =>
    .error ⟨.invalidFormat, .internal, pathMessage "Cannot resolve base directory: " baseDir⟩
  | some baseReal =>
    if ¬baseReal <+: realPath then
      .error ⟨.invalidFormat, .pathTraversal, pathMessage "Path escapes base directory: " path⟩
    else
      -- the character after the prefix, `none` for the NUL
      match (realPath.drop baseReal.length).head? with
      | none | some '/' =>
        (checkExisting fs path realPath flags).map fun _ => storePath resolvedPathSize realPath
      | some _ =>
        .error ⟨.invalidFormat, .pathTraversal, pathMessage "Path escapes base directory: " path⟩

/-- The resolution with `realpath`. -/
def resolveRealpath (path baseDir fullPath : CStr) (flags : PathFlags) (resolvedPathSize : ℕ) :
    Except PathFailure CStr :=
  match fs.realpath fullPath with
  | none =>
    if flags.mustExist = false then .ok (storePath resolvedPathSize fullPath)
    else .error ⟨.invalidFormat, .fileNotFound, pathMessage "Path resolution failed: " path⟩
  | some realPath => checkResolved fs path baseDir realPath flags resolvedPathSize

/-- The part of `spx_validate_path` from the opening on. -/
def openAndResolve (path baseDir fullPath : CStr) (flags : PathFlags) (resolvedPathSize : ℕ) :
    Except PathFailure CStr :=
  if flags.allowSymlinks = true then
    resolveRealpath fs path baseDir fullPath flags resolvedPathSize
  else
    match fs.openNofollow flags.mustBeDir fullPath with
    | .error errno =>
      if errno = platform.eloop ∨ errno = platform.emlink then
        .error ⟨.invalidFormat, .pathTraversal, pathMessage "Symlink detected: " path⟩
      else if flags.mustExist = false then .ok (storePath resolvedPathSize fullPath)
      else
        .error ⟨.invalidFormat, .fileNotFound,
          pathMessage "Cannot open path: " path ++ " (errno=" ++ toString errno ++ ")"⟩
    | .ok link =>
      if platform.linux = false then
        resolveRealpath fs path baseDir fullPath flags resolvedPathSize
      else
        match link with
        | none =>
          .error ⟨.invalidFormat, .internal, pathMessage "Failed to resolve path: " path⟩
        | some realPath =>
          checkResolved fs path baseDir (realPath.take (platform.pathMax - 1)) flags
            resolvedPathSize

/-- `spx_validate_path`: the text stored in `resolved_path`.  `none` is `NULL`; of
`resolved_path`, the size is given. -/
def validatePath (path baseDir : Option CStr) (flags : PathFlags) (resolvedPath : Option ℕ) :
    Except PathFailure CStr :=
  match path, baseDir, resolvedPath with
  | some path, some baseDir, some resolvedPathSize =>
    if resolvedPathSize < platform.pathMax then
      .error ⟨.invalidFormat, .invalidInput,
        "Buffer too small (need PATH_MAX=" ++ toString platform.pathMax ++ ", got " ++
          toString resolvedPathSize ++ ")"⟩
    else
      match fs.stat baseDir with
      | none =>
        .error ⟨.invalidFormat, .fileNotFound,
          pathMessage "Base directory does not exist: " baseDir⟩
      | some type =>
        if type ≠ .directory then
          .error ⟨.invalidFormat, .invalidInput,
            pathMessage "Base path is not a directory: " baseDir⟩
        else
          let fullPath := baseDir ++ '/' :: path
          if platform.pathMax ≤ fullPath.length then
            .error ⟨.tooLong, .invalidInput, "Path too long"⟩
          else openAndResolve platform fs path baseDir fullPath flags resolvedPathSize
  | _, _, _ => .error ⟨.nullInput, .invalidInput, "NULL parameter"⟩

end Validate

/-! ## The place a path leads to -/

/-- The moves that a path stands for. -/
def movesOf (path : CStr) : List (Move CStr) :=
  (path.splitOn '/').filterMap fun component =>
    if component = [] ∨ component = ['.'] then none
    else if component = ['.', '.'] then some .up
    else some (.into component)

/-- The place that an absolute path leads to. -/
def placeOf (path : CStr) : List CStr := walk [] (movesOf path)

/-- The place that a stored path leads to.  At its start, `base_dir` as it was given stands for
the real base directory. -/
def storedPlace (baseDir baseReal stored : CStr) : List CStr :=
  if (baseDir ++ ['/']) <+: stored then
    walk (placeOf baseReal) (movesOf (stored.drop (baseDir.length + 1)))
  else placeOf stored

/-- The stored path leads to the real base directory or below. -/
def Inside (baseDir baseReal stored : CStr) : Prop :=
  placeOf baseReal <+: storedPlace baseDir baseReal stored

/-- A path from which `.` and `..` have been resolved. -/
def Resolved (path : CStr) : Prop := ∃ names : List CStr, movesOf path = names.map .into

/-- What `realpath` and the link of a descriptor answer: resolved paths that fit `PATH_MAX`. -/
structure FileSystem.Lawful (platform : Platform) (fs : FileSystem) : Prop where
  realpath_resolved : ∀ path realPath, fs.realpath path = some realPath → Resolved realPath
  realpath_length : ∀ path realPath, fs.realpath path = some realPath →
    realPath.length < platform.pathMax
  link_resolved : ∀ dir path realPath, fs.openNofollow dir path = .ok (some realPath) →
    Resolved realPath
  link_length : ∀ dir path realPath, fs.openNofollow dir path = .ok (some realPath) →
    realPath.length < platform.pathMax

theorem movesOf_append (path path' : CStr) :
    movesOf (path ++ '/' :: path') = movesOf path ++ movesOf path' := by
  rw [movesOf, List.splitOn_append_cons_self, List.filterMap_append]
  rfl

theorem storedPlace_fullPath (baseDir baseReal path : CStr) :
    storedPlace baseDir baseReal (baseDir ++ '/' :: path)
      = walk (placeOf baseReal) (movesOf path) := by
  have hbelow : (baseDir ++ ['/']) <+: baseDir ++ '/' :: path := by
    rw [← List.singleton_append (l := path), ← List.append_assoc]
    exact List.prefix_append _ _
  have hdrop : (baseDir ++ '/' :: path).drop (baseDir.length + 1) = path := by
    rw [List.drop_append, List.drop_eq_nil_of_le (Nat.le_succ _), Nat.add_sub_cancel_left]
    rfl
  rw [storedPlace, if_pos hbelow, hdrop]

theorem Resolved.walk_eq {path : CStr} (h : Resolved path) (start : List CStr) :
    start <+: walk start (movesOf path) := by
  obtain ⟨names, hnames⟩ := h
  rw [hnames, walk_map_into]
  exact List.prefix_append start names

/-- What comes after a part of a resolved path. -/
theorem Resolved.of_append {path path' : CStr} (h : Resolved (path ++ '/' :: path')) :
    Resolved path' := by
  obtain ⟨names, hnames⟩ := h
  rw [movesOf_append] at hnames
  obtain ⟨before, after, -, -, hafter⟩ := List.append_eq_map_iff.mp hnames
  exact ⟨after, hafter.symm⟩

/-- A resolved path that passes the prefix check is confined. -/
theorem inside_of_prefix {baseDir baseReal realPath : CStr} (hresolved : Resolved realPath)
    (hbelow : baseReal <+: realPath)
    (hnext : (realPath.drop baseReal.length).head? = none ∨
      (realPath.drop baseReal.length).head? = some '/') :
    Inside baseDir baseReal realPath := by
  rw [Inside]
  by_cases h : (baseDir ++ ['/']) <+: realPath
  · obtain ⟨rest, rfl⟩ := h
    rw [List.append_assoc, List.singleton_append] at hresolved ⊢
    rw [storedPlace_fullPath]
    exact hresolved.of_append.walk_eq _
  · rw [storedPlace, if_neg h]
    obtain ⟨rest, rfl⟩ := hbelow
    rw [List.drop_left] at hnext
    cases rest with
    | nil => rw [List.append_nil]
    | cons c rest =>
      have hslash : c = '/' := by simpa using hnext
      subst hslash
      rw [placeOf, placeOf, movesOf_append, walk_append]
      exact hresolved.of_append.walk_eq _

/-! ## Accepted paths -/

section Accepted

variable {platform : Platform} {fs : FileSystem} {path baseDir baseReal : CStr}
  {flags : PathFlags} {resolvedPathSize : ℕ}

theorem storePath_eq {stored : CStr} (hsize : platform.pathMax ≤ resolvedPathSize)
    (hlength : stored.length < platform.pathMax) : storePath resolvedPathSize stored = stored :=
  List.take_of_length_le (by omega)

/-- A path that is accepted after its resolution passed the prefix check. -/
theorem checkResolved_ok {realPath stored : CStr} (hbase : fs.realpath baseDir = some baseReal)
    (h : checkResolved fs path baseDir realPath flags resolvedPathSize = .ok stored) :
    stored = storePath resolvedPathSize realPath ∧ baseReal <+: realPath ∧
      ((realPath.drop baseReal.length).head? = none ∨
        (realPath.drop baseReal.length).head? = some '/') := by
  have hstored : (checkExisting fs path realPath flags).map
      (fun _ => storePath resolvedPathSize realPath) = .ok stored →
        stored = storePath resolvedPathSize realPath := by
    cases checkExisting fs path realPath flags with
    | error failure => exact fun h => nomatch h
    | ok _ => exact fun h => (Except.ok.inj h).symm
  rw [checkResolved, hbase] at h
  dsimp only at h
  split_ifs at h with hbelow
  split at h
  · rename_i hnext
    exact ⟨hstored h, hbelow, .inl hnext⟩
  · rename_i hnext
    exact ⟨hstored h, hbelow, .inr hnext⟩
  · exact nomatch h

theorem inside_of_checkResolved {realPath stored : CStr}
    (hbase : fs.realpath baseDir = some baseReal) (hresolved : Resolved realPath)
    (hsize : platform.pathMax ≤ resolvedPathSize) (hlength : realPath.length < platform.pathMax)
    (h : checkResolved fs path baseDir realPath flags resolvedPathSize = .ok stored) :
    Inside baseDir baseReal stored := by
  obtain ⟨rfl, hbelow, hnext⟩ := checkResolved_ok hbase h
  rw [storePath_eq hsize hlength]
  exact inside_of_prefix hresolved hbelow hnext

variable (platform fs)

/-- The file system does not resolve a path: it cannot be opened, for another reason than that
it is a symbolic link, or it has no real path where that is asked for. -/
def Unresolvable (flags : PathFlags) (fullPath : CStr) : Prop :=
  if flags.allowSymlinks = true then fs.realpath fullPath = none
  else
    match fs.openNofollow flags.mustBeDir fullPath with
    | .error errno => errno ≠ platform.eloop ∧ errno ≠ platform.emlink
    | .ok _ => platform.linux = false ∧ fs.realpath fullPath = none

/-- A path that is not resolved and need not exist is accepted as it is. -/
def AcceptedUnresolved (path baseDir : CStr) (flags : PathFlags) (resolvedPathSize : ℕ) : Prop :=
  platform.pathMax ≤ resolvedPathSize ∧ fs.stat baseDir = some .directory ∧
    (baseDir ++ '/' :: path).length < platform.pathMax ∧ flags.mustExist = false ∧
    Unresolvable platform fs flags (baseDir ++ '/' :: path)

variable {platform fs}

/-- What `realpath` leads to. -/
theorem resolveRealpath_ok {fullPath stored : CStr}
    (h : resolveRealpath fs path baseDir fullPath flags resolvedPathSize = .ok stored) :
    (flags.mustExist = false ∧ fs.realpath fullPath = none ∧
        stored = storePath resolvedPathSize fullPath) ∨
      ∃ realPath, fs.realpath fullPath = some realPath ∧
        checkResolved fs path baseDir realPath flags resolvedPathSize = .ok stored := by
  rw [resolveRealpath] at h
  cases hreal : fs.realpath fullPath with
  | none =>
    rw [hreal] at h
    dsimp only at h
    split_ifs at h with hexist
    exact .inl ⟨hexist, rfl, (Except.ok.inj h).symm⟩
  | some realPath =>
    rw [hreal] at h
    exact .inr ⟨realPath, rfl, h⟩

/-- The ways to an accepted path. -/
theorem openAndResolve_ok (hfs : fs.Lawful platform) {fullPath stored : CStr}
    (h : openAndResolve platform fs path baseDir fullPath flags resolvedPathSize = .ok stored) :
    (flags.mustExist = false ∧ Unresolvable platform fs flags fullPath ∧
        stored = storePath resolvedPathSize fullPath) ∨
      ∃ realPath, Resolved realPath ∧ realPath.length < platform.pathMax ∧
        checkResolved fs path baseDir realPath flags resolvedPathSize = .ok stored := by
  have hreal {realPath : CStr} (hreal : fs.realpath fullPath = some realPath) :
      Resolved realPath ∧ realPath.length < platform.pathMax :=
    ⟨hfs.realpath_resolved _ _ hreal, hfs.realpath_length _ _ hreal⟩
  rw [openAndResolve] at h
  rw [Unresolvable]
  by_cases hsymlinks : flags.allowSymlinks = true
  · rw [if_pos hsymlinks] at h ⊢
    rcases resolveRealpath_ok h with ⟨hexist, hnone, hstored⟩ | ⟨realPath, hsome, hcheck⟩
    · exact .inl ⟨hexist, hnone, hstored⟩
    · exact .inr ⟨realPath, (hreal hsome).1, (hreal hsome).2, hcheck⟩
  · rw [if_neg hsymlinks] at h ⊢
    cases hopen : fs.openNofollow flags.mustBeDir fullPath with
    | error errno =>
      rw [hopen] at h
      dsimp only at h ⊢
      split_ifs at h with hlink hexist
      exact .inl ⟨hexist, not_or.mp hlink, (Except.ok.inj h).symm⟩
    | ok link =>
      rw [hopen] at h
      dsimp only at h ⊢
      by_cases hlinux : platform.linux = false
      · rw [if_pos hlinux] at h
        rcases resolveRealpath_ok h with ⟨hexist, hnone, hstored⟩ | ⟨realPath, hsome, hcheck⟩
        · exact .inl ⟨hexist, ⟨hlinux, hnone⟩, hstored⟩
        · exact .inr ⟨realPath, (hreal hsome).1, (hreal hsome).2, hcheck⟩
      · rw [if_neg hlinux] at h
        cases link with
        | none => exact nomatch h
        | some realPath =>
          have hlength := hfs.link_length _ _ _ hopen
          have htake : realPath.take (platform.pathMax - 1) = realPath :=
            List.take_of_length_le (by omega)
          dsimp only at h
          rw [htake] at h
          exact .inr ⟨realPath, hfs.link_resolved _ _ _ hopen, hlength, h⟩

/-- A path that is not resolved and need not exist. -/
theorem openAndResolve_of_unresolvable {fullPath : CStr} (hexist : flags.mustExist = false)
    (h : Unresolvable platform fs flags fullPath) :
    openAndResolve platform fs path baseDir fullPath flags resolvedPathSize
      = .ok (storePath resolvedPathSize fullPath) := by
  have hreal (hnone : fs.realpath fullPath = none) :
      resolveRealpath fs path baseDir fullPath flags resolvedPathSize
        = .ok (storePath resolvedPathSize fullPath) := by
    rw [resolveRealpath, hnone]
    exact if_pos hexist
  rw [Unresolvable] at h
  rw [openAndResolve]
  by_cases hsymlinks : flags.allowSymlinks = true
  · rw [if_pos hsymlinks] at h ⊢
    exact hreal h
  · rw [if_neg hsymlinks] at h ⊢
    cases hopen : fs.openNofollow flags.mustBeDir fullPath with
    | error errno =>
      rw [hopen] at h
      dsimp only at h ⊢
      rw [if_neg (not_or.mpr h), if_pos hexist]
    | ok link =>
      rw [hopen] at h
      dsimp only at h ⊢
      rw [if_pos h.1]
      exact hreal h.2

/-- The names that a path climbs from a place are those that it goes down through again. -/
def ComesBack (start : List CStr) (path : CStr) : Prop :=
  start.drop (start.length - (climb (movesOf path)).levels) <+: (climb (movesOf path)).way

/-- **Every path that is accepted is confined** to the base directory exactly when a path that
is accepted unresolved comes back to it. -/
theorem validate_path_confined_iff (hfs : fs.Lawful platform)
    (hbase : fs.realpath baseDir = some baseReal) :
    (∀ stored,
        validatePath platform fs (some path) (some baseDir) flags (some resolvedPathSize)
          = .ok stored →
        Inside baseDir baseReal stored) ↔
      (AcceptedUnresolved platform fs path baseDir flags resolvedPathSize →
        ComesBack (placeOf baseReal) path) := by
  have hfull : Inside baseDir baseReal (baseDir ++ '/' :: path) ↔
      ComesBack (placeOf baseReal) path := by
    rw [Inside, storedPlace_fullPath]
    exact prefix_walk_iff _ _
  constructor
  · rintro h ⟨hsize, hstat, hlength, hexist, hunresolvable⟩
    refine hfull.mp (h _ ?_)
    rw [validatePath, if_neg (not_lt.mpr hsize), hstat]
    dsimp only
    rw [if_neg (not_not.mpr rfl), if_neg (not_le.mpr hlength),
      openAndResolve_of_unresolvable hexist hunresolvable, storePath_eq hsize hlength]
  · intro h stored hok
    rw [validatePath] at hok
    split_ifs at hok with hsize
    cases hstat : fs.stat baseDir with
    | none =>
      rw [hstat] at hok
      exact nomatch hok
    | some type =>
      rw [hstat] at hok
      dsimp only at hok
      split_ifs at hok with hdir hlength
      rcases openAndResolve_ok hfs hok with ⟨hexist, hunresolvable, rfl⟩
        | ⟨realPath, hresolved, hreal, hcheck⟩
      · rw [storePath_eq (not_lt.mp hsize) (not_le.mp hlength)]
        rw [not_not.mp hdir] at hstat
        exact hfull.mpr (h ⟨not_lt.mp hsize, hstat, not_le.mp hlength, hexist, hunresolvable⟩)
      · exact inside_of_checkResolved hbase hresolved (not_lt.mp hsize) hreal hcheck

end Accepted

/-- A file system with the base directory, and files that cannot be opened. -/
def emptyBase : FileSystem where
  stat := fun path => if path = "/tmp/spx".toList then some .directory else none
  openNofollow := fun _ _ => .error 2
  realpath := fun path => if path = "/tmp/spx".toList then some path else none

/-- Linux. -/
def linuxPlatform : Platform := ⟨true, 4096, 40, 31⟩

/-- A report that does not exist. -/
theorem validate_path_confined_report :
    (∀ stored,
        validatePath linuxPlatform emptyBase (some "r.json".toList) (some "/tmp/spx".toList)
            ⟨false, false, false, false, false⟩ (some 4096) = .ok stored →
        Inside "/tmp/spx".toList "/tmp/spx".toList stored) ∧
      ComesBack (placeOf "/tmp/spx".toList) "r.json".toList := by
  have hfs : emptyBase.Lawful linuxPlatform := by
    have hreal {path realPath : CStr} (h : emptyBase.realpath path = some realPath) :
        realPath = "/tmp/spx".toList := by
      rw [emptyBase] at h
      dsimp only at h
      split_ifs at h with hpath
      exact (Option.some.inj h).symm.trans hpath
    have hclosed {dir : Bool} {path realPath : CStr} :
        emptyBase.openNofollow dir path ≠ .ok (some realPath) := fun h => nomatch h
    refine ⟨fun path realPath h => ?_, fun path realPath h => ?_,
      fun _ _ _ h => absurd h hclosed, fun _ _ _ h => absurd h hclosed⟩
    · rw [hreal h]
      exact ⟨["tmp".toList, "spx".toList], by decide +kernel⟩
    · rw [hreal h]
      decide +kernel
  have hback : ComesBack (placeOf "/tmp/spx".toList) "r.json".toList := by
    rw [ComesBack]
    decide +kernel
  exact ⟨(validate_path_confined_iff hfs rfl).mpr fun _ => hback, hback⟩

/-- A path that climbs out of the base directory is accepted when it cannot be opened. -/
theorem validate_path_climbs :
    validatePath linuxPlatform emptyBase (some "../../etc/passwd.json".toList)
        (some "/tmp/spx".toList) ⟨false, false, false, false, false⟩ (some 4096)
      = .ok "/tmp/spx/../../etc/passwd.json".toList ∧
      placeOf "/tmp/spx/../../etc/passwd.json".toList = ["etc".toList, "passwd.json".toList] ∧
      ¬Inside "/tmp/spx".toList "/tmp/spx".toList "/tmp/spx/../../etc/passwd.json".toList := by
  refine ⟨rfl, by decide +kernel, ?_⟩
  rw [Inside]
  decide +kernel

end PhpSpx
