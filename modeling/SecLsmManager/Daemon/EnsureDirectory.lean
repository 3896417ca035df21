import SecLsmManager.Context.PathScan
import SecLsmManager.Policy.Smack
import SecLsmManager.Protocol.Prot
import SecLsmManager.Lib.Lines
import SecLsmManager.Lib.MakeRoute
import SecLsmManager.Lib.Words

/-!
# The directories of the daemon

`ensure_directory` of `main-sec-lsm-managerd.c`, which makes the directory of the sockets with those
that lead to it. It tries the whole path, and it cuts the path when a directory is missing. When a
directory is missing behind an entry that is there, it cuts and restores the path for ever: this is
so behind a link to nowhere (`ensureDirectory_iff`).
-/

namespace SecLsmManager

open Lib

/-! ## Paths -/

/-- The `errno` values of the file system other than those that the walk along a path gives. -/
inductive DiskErrno
  | EACCES | EDQUOT | EIO | EMLINK | ENAMETOOLONG | ENOMEM | ENOSPC | EPERM | EROFS
  deriving DecidableEq

/-- The names of a path. -/
def pathNames (path : List UInt8) : List (List UInt8) := words (· == SLASH) path

def pathStep (name : List UInt8) : RouteStep (List UInt8) :=
  if name = [DOT] then .here
  else if name = [DOT, DOT] then .up
  else .down name

/-- The route that a path describes, for who makes a directory. -/
def pathRoute (path : List UInt8) : Route (List UInt8) where
  fromRoot := path.head? = some SLASH
  steps := (pathNames path).map pathStep

/-- The route that a path describes, where a slash at the end asks for a directory. -/
def statRoute (path : List UInt8) : Route (List UInt8) :=
  if path.getLast? = some SLASH then
    { pathRoute path with steps := (pathRoute path).steps ++ [.here] }
  else pathRoute path

/-! ## The file system -/

/-- The count of symbolic links that the system follows along a path. -/
def MAXSYMLINKS : Nat := 40

/-- The file system of the daemon: the tree, the working directory, the user and the group of each
entry, those of the daemon, and the entries that it cannot give away. -/
structure Disk where
  tree : FileTree (List UInt8) DiskErrno
  cwd : List (List UInt8)
  owner : List (List UInt8) → UInt32 × UInt32
  self : UInt32 × UInt32
  kept : List (List UInt8) → Bool

namespace Disk

/-- `mkdir`: the value of `errno` if it fails. -/
def mkdir (disk : Disk) (path : CStr) : Option (FileError DiskErrno) × Disk :=
  if PATH_MAX ≤ path.length then (some (.other .ENAMETOOLONG), disk)
  else
    match disk.tree.mkdir MAXSYMLINKS disk.cwd (pathRoute path.bytes) with
    | .error e => (some e, disk)
    | .ok tree =>
      match tree.resolve MAXSYMLINKS disk.cwd (pathRoute path.bytes) with
      | .error _ => (none, { disk with tree := tree })
      | .ok loc =>
        (none, { disk with tree := tree, owner := Function.update disk.owner loc disk.self })

/-- `stat`: the location of the entry. -/
def stat (disk : Disk) (path : CStr) : Except (FileError DiskErrno) (List (List UInt8)) :=
  if PATH_MAX ≤ path.length then .error (.other .ENAMETOOLONG)
  else if path.bytes = [] then .error .missing
  else disk.tree.resolve MAXSYMLINKS disk.cwd (statRoute path.bytes)

/-- `chown`, where the value -1 keeps the user or the group. -/
def chown (disk : Disk) (path : CStr) (uid gid : UInt32) : Bool × Disk :=
  match disk.stat path with
  | .error _ => (false, disk)
  | .ok loc =>
    if disk.kept loc then (false, disk)
    else
      let uid := if uid = -1 then (disk.owner loc).1 else uid
      let gid := if gid = -1 then (disk.owner loc).2 else gid
      (true, { disk with owner := Function.update disk.owner loc (uid, gid) })

/-- The path denotes an existing directory. -/
def IsDirectory (disk : Disk) (path : CStr) : Prop :=
  ∃ loc, disk.stat path = .ok loc ∧ disk.tree.kind loc = some .directory

end Disk

/-! ## The source -/

/-- The loop of `enddir`, from the index `i` of the path: `inName` tells its second inner loop from
the first one. -/
def enddirLoop (inName : Bool) : List UInt8 → Nat → Option Nat → Option Nat → Option Nat
  | [], _, _, r => r
  | b :: path, i, c, r =>
    if b = SLASH then
      if inName then enddirLoop false path (i + 1) (some i) r
      else enddirLoop false path (i + 1) c r
    else if inName then enddirLoop true path (i + 1) c r
    else enddirLoop true path (i + 1) c c

/-- `enddir`: the index of the last slash of the path, if it is meaningful. -/
def enddir (path : CStr) : Option Nat := enddirLoop false path.bytes 0 none none

/-- The end of `ensuredir`, once the path exists. -/
def ensureOwner (path : CStr) (uid gid : Int) (disk : Disk) : Int × Disk :=
  match disk.stat path with
  | .error _ => (-1, disk)
  | .ok loc =>
    if disk.tree.kind loc ≠ some .directory then (-1, disk)
    else if (UInt32.ofInt uid ≠ (disk.owner loc).1 ∧ uid ≥ 0) ∨
        (UInt32.ofInt gid ≠ (disk.owner loc).2 ∧ gid ≥ 0) then
      match disk.chown path (UInt32.ofInt uid) (UInt32.ofInt gid) with
      | (false, disk) => (-1, disk)
      | (true, disk) => (0, disk)
    else (0, disk)

/-- The loop of `ensuredir`, with the buffer of the path and the index `n` of its end. -/
def ensuredir (length : Nat) (uid gid : Int) :
    Nat → List UInt8 → Nat → Disk → Option (Int × Disk)
  | 0, _, _, _ => none
  | fuel + 1, buffer, n, disk =>
    let buffer := buffer.set n 0
    let path := CStr.ofBytes buffer
    match disk.mkdir path with
    | (errno, disk) =>
      if errno = none ∨ errno = some .present then
        if n = length then some (ensureOwner path uid gid disk)
        else
          let buffer := buffer.set n SLASH
          ensuredir length uid gid fuel buffer (CStr.ofBytes buffer).length disk
      else if errno = some .missing then
        match enddir path with
        | none => some (-1, disk)
        | some n => ensuredir length uid gid fuel buffer n disk
      else some (-1, disk)

/-- `ensure_directory`, with a copy of the path. -/
def ensureDirectory (path : CStr) (uid gid : Int) (disk : Disk) (fuel : Nat) :
    Option (Int × Disk) :=
  if path.length > INT_MAX then some (-1, disk)
  else ensuredir path.length uid gid fuel (path.bytes ++ [0]) path.length disk

/-! ## `enddir` -/

/-- A name is up to the next slash. -/
theorem pathNames_cons {b : UInt8} (hb : b ≠ SLASH) (path : List UInt8) :
    pathNames (b :: path) =
      (b :: path.takeWhile (! · == SLASH)) :: pathNames (path.dropWhile (! · == SLASH)) :=
  words_cons (by simpa using hb) path

/-- A slash in front makes no difference to the names. -/
@[simp] theorem pathNames_slash (path : List UInt8) :
    pathNames (SLASH :: path) = pathNames path :=
  words_cons_of_sep (by simp) path

/-- The names on both sides of a slash. -/
theorem pathNames_append_slash (l r : List UInt8) :
    pathNames (l ++ SLASH :: r) = pathNames l ++ pathNames r :=
  words_append_cons (by simp) l r

/-- The empty path has no name. -/
@[simp] theorem pathNames_nil : pathNames [] = [] := words_nil

/-- The index of a slash with one name behind it, in a path that starts at the index `i`. -/
def IsCut (path : List UInt8) (i : Nat) (n : Option Nat) : Prop :=
  ∃ q r, path = q ++ SLASH :: r ∧ n = some (i + q.length) ∧ (pathNames r).length = 1

/-- The same cut, from one character before. -/
theorem IsCut.cons {path : List UInt8} {i : Nat} {n : Option Nat} (h : IsCut path (i + 1) n)
    (b : UInt8) : IsCut (b :: path) i n := by
  obtain ⟨q, r, rfl, rfl, hr⟩ := h
  refine ⟨b :: q, r, rfl, ?_, hr⟩
  simp only [List.length_cons, Option.some.injEq]
  omega

/-- What the loop finds, by the names that follow. -/
structure EnddirLoop (path : List UInt8) (i : Nat) (c r : Option Nat) : Prop where
  lastName : pathNames (path.dropWhile (! · == SLASH)) = [] → enddirLoop true path i c r = r
  name : pathNames (path.dropWhile (! · == SLASH)) ≠ [] →
    IsCut path i (enddirLoop true path i c r)
  noName : pathNames path = [] → enddirLoop false path i c r = r
  oneName : (pathNames path).length = 1 → enddirLoop false path i c r = c
  names : 1 < (pathNames path).length → IsCut path i (enddirLoop false path i c r)

/-- The loop, by induction on the path. -/
theorem enddirLoop_spec (path : List UInt8) (i : Nat) (c r : Option Nat) :
    EnddirLoop path i c r := by
  induction path generalizing i c r with
  | nil =>
    exact ⟨fun _ => rfl, fun h => absurd pathNames_nil h, fun _ => rfl, fun h => by simp at h,
      fun h => by simp at h⟩
  | cons b path ih =>
    by_cases hb : b = SLASH
    · subst hb
      have hdrop : (SLASH :: path).dropWhile (! · == SLASH) = SLASH :: path := by simp
      have hname : enddirLoop true (SLASH :: path) i c r =
          enddirLoop false path (i + 1) (some i) r := by simp [enddirLoop]
      have hslash : enddirLoop false (SLASH :: path) i c r =
          enddirLoop false path (i + 1) c r := by simp [enddirLoop]
      constructor
      · intro h
        rw [hdrop, pathNames_slash] at h
        exact hname.trans ((ih (i + 1) (some i) r).noName h)
      · intro h
        rw [hdrop, pathNames_slash, ← List.length_pos_iff] at h
        rw [hname]
        obtain h | h := Nat.lt_or_eq_of_le (Nat.succ_le_of_lt h)
        · exact ((ih (i + 1) (some i) r).names h).cons SLASH
        · exact ⟨[], path, rfl, (ih (i + 1) (some i) r).oneName h.symm, h.symm⟩
      · intro h
        rw [pathNames_slash] at h
        exact hslash.trans ((ih (i + 1) c r).noName h)
      · intro h
        rw [pathNames_slash] at h
        exact hslash.trans ((ih (i + 1) c r).oneName h)
      · intro h
        rw [pathNames_slash] at h
        rw [hslash]
        exact ((ih (i + 1) c r).names h).cons SLASH
    · have hdrop : (b :: path).dropWhile (! · == SLASH) = path.dropWhile (! · == SLASH) := by
        simp [hb]
      have hname : enddirLoop true (b :: path) i c r = enddirLoop true path (i + 1) c r := by
        simp [enddirLoop, hb]
      have hstart : enddirLoop false (b :: path) i c r = enddirLoop true path (i + 1) c c := by
        simp [enddirLoop, hb]
      constructor
      · intro h
        rw [hdrop] at h
        exact hname.trans ((ih (i + 1) c r).lastName h)
      · intro h
        rw [hdrop] at h
        rw [hname]
        exact ((ih (i + 1) c r).name h).cons b
      · intro h
        rw [pathNames_cons hb] at h
        cases h
      · intro h
        rw [pathNames_cons hb, List.length_cons, Nat.add_eq_right, List.length_eq_zero_iff] at h
        exact hstart.trans ((ih (i + 1) c c).lastName h)
      · intro h
        rw [pathNames_cons hb, List.length_cons, Nat.lt_add_left_iff_pos, List.length_pos_iff] at h
        rw [hstart]
        exact ((ih (i + 1) c c).name h).cons b

/-- There is no cut in a path with one name at most. -/
theorem enddir_eq_none (path : CStr) (h : (pathNames path.bytes).length ≤ 1) :
    enddir path = none := by
  obtain h | h := Nat.lt_or_eq_of_le h
  · exact (enddirLoop_spec path.bytes 0 none none).noName
      (List.length_eq_zero_iff.1 (Nat.lt_one_iff.1 h))
  · exact (enddirLoop_spec path.bytes 0 none none).oneName h

/-- In any other path the last name is cut off. -/
theorem enddir_isCut (path : CStr) (h : 1 < (pathNames path.bytes).length) :
    IsCut path.bytes 0 (enddir path) :=
  (enddirLoop_spec path.bytes 0 none none).names h

/-! ## The pieces of the buffer -/

/-- The buffer is cut into the text up to `n` and the names that were dropped. -/
structure CutPath (path : CStr) (buffer : List UInt8) (n : Nat) (text : List UInt8)
    (rest : List (List UInt8)) : Prop where
  buffer_eq : buffer.set n 0 = terminated 0 (text :: rest)
  index : n = text.length
  path_eq : path.bytes = [SLASH].intercalate (text :: rest)
  single : ∀ r ∈ rest, (pathNames r).length = 1
  text_ne : rest ≠ [] → text ≠ []

namespace CutPath

variable {path : CStr} {buffer text r : List UInt8} {n : Nat} {rest : List (List UInt8)}

/-- At first the buffer is the path. -/
theorem whole (path : CStr) : CutPath path (path.bytes ++ [0]) path.length path.bytes [] where
  buffer_eq := by simp [CStr.length, terminated]
  index := rfl
  path_eq := by simp
  single := by simp
  text_ne h := absurd rfl h

/-- The text of the buffer is part of the path, so it has no NUL. -/
theorem nonul_of_path_eq (h : path.bytes = [SLASH].intercalate (text :: rest)) : 0 ∉ text := by
  have hpre : text <+: path.bytes := by
    rw [h]
    cases rest with
    | nil => simp
    | cons r rest => exact ⟨SLASH :: [SLASH].intercalate (r :: rest), by simp⟩
  exact fun h0 => path.nonul (hpre.subset h0)

/-- The same for a cut buffer. -/
theorem nonul (h : CutPath path buffer n text rest) : 0 ∉ text := nonul_of_path_eq h.path_eq

/-- What the C string of the buffer is. -/
theorem ofBytes_terminated (h : 0 ∉ text) (rest : List (List UInt8)) :
    CStr.ofBytes (terminated 0 (text :: rest)) = ⟨text, h⟩ := by
  rw [terminated, List.flatMap_cons, List.append_assoc, List.singleton_append,
    CStr.ofBytes_append_nul]
  exact CStr.ext (CStr.ofBytes_of_nonul h)

/-- The text of the buffer. -/
theorem ofBytes_buffer (h : CutPath path buffer n text rest) :
    CStr.ofBytes (buffer.set n 0) = ⟨text, h.nonul⟩ := by
  rw [h.buffer_eq, ofBytes_terminated h.nonul]

/-- The index is at the end of the path when nothing is cut off. -/
theorem index_eq_length_iff (h : CutPath path buffer n text rest) :
    n = path.length ↔ rest = [] := by
  rw [h.index, CStr.length, h.path_eq]
  cases rest with
  | nil => simp
  | cons r rest =>
    simp only [List.intercalate_cons_cons, List.length_append, reduceCtorEq, iff_false]
    simp
    omega

/-- The text then is the path. -/
theorem text_eq_path (h : CutPath path buffer n text []) : (⟨text, h.nonul⟩ : CStr) = path :=
  CStr.ext (by simp [h.path_eq])

/-- The dropped name behind the text comes back. -/
theorem restore (h : CutPath path buffer n text (r :: rest)) :
    CutPath path ((buffer.set n 0).set n SLASH)
      (CStr.ofBytes ((buffer.set n 0).set n SLASH)).length (text ++ SLASH :: r) rest := by
  have hbuffer : (buffer.set n 0).set n SLASH = terminated 0 ((text ++ SLASH :: r) :: rest) := by
    rw [h.buffer_eq, h.index]
    simp [terminated]
  have hpath : path.bytes = [SLASH].intercalate ((text ++ SLASH :: r) :: rest) := by
    rw [h.path_eq]
    cases rest <;> simp
  rw [hbuffer, ofBytes_terminated (nonul_of_path_eq hpath)]
  exact {
    buffer_eq := by simp [CStr.length, terminated]
    index := rfl
    path_eq := hpath
    single := fun r' hr' => h.single r' (List.mem_cons_of_mem r hr')
    text_ne := fun _ => by simp }

/-- The last name of the text is dropped. -/
theorem drop {q : List UInt8} (h : CutPath path buffer n text rest) (htext : text = q ++ SLASH :: r)
    (hq : q ≠ []) (hr : (pathNames r).length = 1) :
    CutPath path (buffer.set n 0) q.length q (r :: rest) where
  buffer_eq := by
    rw [h.buffer_eq, htext]
    simp [terminated]
  index := rfl
  path_eq := by
    rw [h.path_eq, htext]
    cases rest <;> simp
  single := by
    intro r' hr'
    obtain rfl | hr' := List.mem_cons.1 hr'
    · exact hr
    · exact h.single r' hr'
  text_ne _ := hq

end CutPath

/-! ## One round of the loop -/

variable {path : CStr} {buffer text : List UInt8} {n fuel : Nat} {rest : List (List UInt8)}
  {disk disk' : Disk} {uid gid : Int}

/-- The path exists. -/
theorem ensuredir_whole (h : CutPath path buffer n text []) {errno : Option (FileError DiskErrno)}
    (hmkdir : disk.mkdir path = (errno, disk')) (herrno : errno = none ∨ errno = some .present) :
    ensuredir path.length uid gid (fuel + 1) buffer n disk =
      some (ensureOwner path uid gid disk') := by
  simp only [ensuredir, h.ofBytes_buffer, h.text_eq_path, hmkdir, if_pos herrno,
    if_pos (h.index_eq_length_iff.2 rfl)]

/-- The text exists: the loop takes a name back. -/
theorem ensuredir_forth {r : List UInt8} (h : CutPath path buffer n text (r :: rest))
    {errno : Option (FileError DiskErrno)}
    (hmkdir : disk.mkdir ⟨text, h.nonul⟩ = (errno, disk'))
    (herrno : errno = none ∨ errno = some .present) :
    ∃ buffer' n', CutPath path buffer' n' (text ++ SLASH :: r) rest ∧
      ensuredir path.length uid gid (fuel + 1) buffer n disk =
        ensuredir path.length uid gid fuel buffer' n' disk' := by
  refine ⟨_, _, h.restore, ?_⟩
  have hn : n ≠ path.length := fun hn => by cases h.index_eq_length_iff.1 hn
  rw [ensuredir]
  simp only [h.ofBytes_buffer, hmkdir, if_pos herrno, if_neg hn]

/-- The text is missing: the loop drops a name. -/
theorem ensuredir_back (h : CutPath path buffer n text rest)
    (hmkdir : disk.mkdir ⟨text, h.nonul⟩ = (some .missing, disk'))
    (hnames : 1 < (pathNames text).length) :
    ∃ q r buffer' n', text = q ++ SLASH :: r ∧ (pathNames r).length = 1 ∧
      CutPath path buffer' n' q (r :: rest) ∧
      ensuredir path.length uid gid (fuel + 1) buffer n disk =
        ensuredir path.length uid gid fuel buffer' n' disk' := by
  obtain ⟨q, r, htext, hend, hr⟩ := enddir_isCut ⟨text, h.nonul⟩ hnames
  change text = q ++ SLASH :: r at htext
  have hq : q ≠ [] := by
    rintro rfl
    rw [htext, pathNames_append_slash, List.length_append, hr] at hnames
    simp at hnames
  refine ⟨q, r, _, _, htext, hr, h.drop htext hq hr, ?_⟩
  rw [Nat.zero_add] at hend
  rw [ensuredir]
  simp only [h.ofBytes_buffer, hmkdir, hend]
  simp

/-- The text is missing and it has no name to drop. -/
theorem ensuredir_root (h : CutPath path buffer n text rest)
    (hmkdir : disk.mkdir ⟨text, h.nonul⟩ = (some .missing, disk'))
    (hnames : (pathNames text).length ≤ 1) :
    ensuredir path.length uid gid (fuel + 1) buffer n disk = some (-1, disk') := by
  have hend := enddir_eq_none ⟨text, h.nonul⟩ hnames
  rw [ensuredir]
  simp only [h.ofBytes_buffer, hmkdir, hend]
  simp

/-- Any other error of `mkdir` ends it. -/
theorem ensuredir_failed (h : CutPath path buffer n text rest) {e : FileError DiskErrno}
    (hmkdir : disk.mkdir ⟨text, h.nonul⟩ = (some e, disk')) (hpresent : e ≠ .present)
    (hmissing : e ≠ .missing) :
    ensuredir path.length uid gid (fuel + 1) buffer n disk = some (-1, disk') := by
  rw [ensuredir]
  simp only [h.ofBytes_buffer, hmkdir]
  simp [hpresent, hmissing]

/-! ## What it ensures -/

/-- The owner is only ensured of a directory. -/
theorem ensureOwner_eq_zero {path : CStr} (h : ensureOwner path uid gid disk = (0, disk')) :
    disk'.IsDirectory path := by
  rw [ensureOwner] at h
  split at h
  · cases h
  next loc hstat =>
    split at h
    · cases h
    next hdir =>
      rw [not_not] at hdir
      split at h
      · split at h
        · cases h
        next disk₁ hchown =>
          cases h
          simp only [Disk.chown, hstat] at hchown
          split at hchown
          · cases hchown
          · cases hchown
            exact ⟨loc, hstat, hdir⟩
      · cases h
        exact ⟨loc, hstat, hdir⟩

/-- It returns zero with a directory. -/
theorem ensuredir_eq_zero (h : CutPath path buffer n text rest)
    (hrun : ensuredir path.length uid gid fuel buffer n disk = some (0, disk')) :
    disk'.IsDirectory path := by
  induction fuel generalizing buffer n text rest disk with
  | zero => cases hrun
  | succ fuel ih =>
    cases hmkdir : disk.mkdir ⟨text, h.nonul⟩ with
    | mk errno disk₁ =>
      by_cases hthere : errno = none ∨ errno = some .present
      · cases rest with
        | nil =>
          rw [h.text_eq_path] at hmkdir
          rw [ensuredir_whole h hmkdir hthere, Option.some.injEq] at hrun
          exact ensureOwner_eq_zero hrun
        | cons r rest =>
          obtain ⟨buffer', n', hcut, hround⟩ := ensuredir_forth h hmkdir hthere
          exact ih hcut (hround ▸ hrun)
      · obtain ⟨e, rfl⟩ := Option.ne_none_iff_exists'.1 fun he => hthere (.inl he)
        by_cases he : e = .missing
        · subst he
          obtain hnames | hnames := Nat.lt_or_ge 1 (pathNames text).length
          · obtain ⟨q, r, buffer', n', -, -, hcut, hround⟩ := ensuredir_back h hmkdir hnames
            exact ih hcut (hround ▸ hrun)
          · rw [ensuredir_root h hmkdir hnames] at hrun
            cases hrun
        · rw [ensuredir_failed h hmkdir (fun hp => hthere (.inr (by rw [hp]))) he] at hrun
          cases hrun

/-! ## When it ends -/

/-- The names of the text and of what was cut off are those of the path. -/
theorem pathNames_intercalate (text : List UInt8) (rest : List (List UInt8)) :
    pathNames ([SLASH].intercalate (text :: rest)) = pathNames text ++ rest.flatMap pathNames := by
  induction rest generalizing text with
  | nil => simp
  | cons r rest ih =>
    have hcons : [SLASH].intercalate (text :: r :: rest) =
        text ++ SLASH :: [SLASH].intercalate (r :: rest) := by simp
    rw [hcons, pathNames_append_slash, ih r, List.flatMap_cons]

/-- The route of the text is that of its names in the path. -/
theorem CutPath.route_eq (h : CutPath path buffer n text rest) :
    pathRoute text = (pathRoute path.bytes).upTo (pathNames text).length := by
  have hhead : text.head? = path.bytes.head? := by
    rw [h.path_eq]
    cases rest with
    | nil => simp
    | cons r rest =>
      obtain ⟨b, text, rfl⟩ := List.exists_cons_of_ne_nil (h.text_ne (List.cons_ne_nil r rest))
      simp
  rw [pathRoute, pathRoute, Route.upTo, Route.mk.injEq]
  refine ⟨by rw [hhead], ?_⟩
  rw [h.path_eq, pathNames_intercalate, ← List.map_take, List.take_left]

/-- The names of the path are those of the text and the names that were dropped. -/
theorem CutPath.length_steps (h : CutPath path buffer n text rest) :
    (pathRoute path.bytes).steps.length = (pathNames text).length + rest.length := by
  have hrest : (rest.flatMap pathNames).length = rest.length := by
    rw [List.length_flatMap, List.map_congr_left h.single]
    simp
  rw [pathRoute, List.length_map, h.path_eq, pathNames_intercalate, List.length_append, hrest]

/-- What `mkdir` does to the tree. -/
theorem mkdir_attempt (disk : Disk) (path : CStr) (hlength : path.length < PATH_MAX) :
    match disk.tree.attempt MAXSYMLINKS disk.cwd (pathRoute path.bytes) with
    | .there t => ∃ errno disk', disk.mkdir path = (errno, disk') ∧
        (errno = none ∨ errno = some .present) ∧ disk'.tree = t ∧ disk'.cwd = disk.cwd
    | .missing => disk.mkdir path = (some .missing, disk)
    | .failed => ∃ e, disk.mkdir path = (some e, disk) ∧ e ≠ .present ∧ e ≠ .missing := by
  rw [Disk.mkdir, if_neg (Nat.not_le.2 hlength), FileTree.attempt]
  cases disk.tree.mkdir MAXSYMLINKS disk.cwd (pathRoute path.bytes) with
  | ok t =>
    cases hresolve : t.resolve MAXSYMLINKS disk.cwd (pathRoute path.bytes) with
    | error e =>
      exact ⟨none, { disk with tree := t }, by simp only [hresolve], .inl rfl, rfl, rfl⟩
    | ok loc =>
      refine ⟨none, { disk with tree := t, owner := Function.update disk.owner loc disk.self },
        ?_, .inl rfl, rfl, rfl⟩
      simp only [hresolve]
  | error e =>
    cases e with
    | present => exact ⟨_, _, rfl, .inr rfl, rfl, rfl⟩
    | missing => rfl
    | notDirectory => exact ⟨_, rfl, by simp, by simp⟩
    | tooManyLinks => exact ⟨_, rfl, by simp, by simp⟩
    | other e => exact ⟨_, rfl, by simp, by simp⟩

/-- The loop goes as the directories are made from the end of the route. -/
theorem ensuredir_isSome (h : CutPath path buffer n text rest) (hlength : path.length < PATH_MAX) :
    (ensuredir path.length uid gid fuel buffer n disk).isSome =
      (FileTree.ensure MAXSYMLINKS disk.cwd (pathRoute path.bytes) fuel (pathNames text).length
        disk.tree).isSome := by
  induction fuel generalizing buffer n text rest disk with
  | zero => rfl
  | succ fuel ih =>
    have htext : text.length ≤ path.length := by
      rw [CStr.length, h.path_eq]
      cases rest <;> simp
    have hmkdir := mkdir_attempt disk ⟨text, h.nonul⟩ (Nat.lt_of_le_of_lt htext hlength)
    have hsteps := h.length_steps
    rw [FileTree.ensure, ← h.route_eq]
    cases hattempt : disk.tree.attempt MAXSYMLINKS disk.cwd (pathRoute text) with
    | there t =>
      rw [hattempt] at hmkdir
      obtain ⟨errno, disk', hmkdir, hthere, rfl, hcwd⟩ := hmkdir
      cases rest with
      | nil =>
        rw [h.text_eq_path] at hmkdir
        rw [ensuredir_whole h hmkdir hthere]
        simp [hsteps]
      | cons r rest =>
        obtain ⟨buffer', n', hcut, hround⟩ := ensuredir_forth h hmkdir hthere
        have hr : (pathNames r).length = 1 := h.single r List.mem_cons_self
        rw [hround, ih hcut, hcwd, pathNames_append_slash, List.length_append, hr]
        simp [hsteps]
    | missing =>
      rw [hattempt] at hmkdir
      obtain hnames | hnames := Nat.lt_or_ge 1 (pathNames text).length
      · obtain ⟨q, r, buffer', n', htext, hr, hcut, hround⟩ := ensuredir_back h hmkdir hnames
        have hq : (pathNames text).length = (pathNames q).length + 1 := by
          rw [htext, pathNames_append_slash, List.length_append, hr]
        simp only [if_neg (Nat.not_le.2 hnames)]
        rw [hround, ih hcut, hq, Nat.add_sub_cancel]
      · rw [ensuredir_root h hmkdir hnames]
        simp [hnames]
    | failed =>
      rw [hattempt] at hmkdir
      obtain ⟨e, hmkdir, hpresent, hmissing⟩ := hmkdir
      rw [ensuredir_failed h hmkdir hpresent hmissing]
      rfl

theorem ensuredir_ends_iff (path : CStr) (uid gid : Int) (disk : Disk)
    (hlength : path.length < PATH_MAX) :
    (∃ fuel, (ensuredir path.length uid gid fuel (path.bytes ++ [0]) path.length disk).isSome) ↔
      disk.tree.Smooth MAXSYMLINKS disk.cwd (pathRoute path.bytes) := by
  have hnames : (pathNames path.bytes).length = (pathRoute path.bytes).steps.length := by
    rw [pathRoute, List.length_map]
  rw [← FileTree.ensure_ends_iff]
  refine exists_congr fun fuel => ?_
  rw [ensuredir_isSome (CutPath.whole path) hlength, hnames]

/-- A path that is too long is refused at once. -/
theorem ensuredir_long (path : CStr) (uid gid : Int) (disk : Disk)
    (hlength : PATH_MAX ≤ path.length) :
    ensuredir path.length uid gid 1 (path.bytes ++ [0]) path.length disk = some (-1, disk) := by
  have hcut := CutPath.whole path
  refine ensuredir_failed (e := .other .ENAMETOOLONG) hcut ?_ (by simp) (by simp)
  rw [hcut.text_eq_path, Disk.mkdir, if_pos hlength]

/-- `ensure_directory` returns, and it returns zero only with a directory. -/
structure EnsuresDirectory (path : CStr) (uid gid : Int) (disk : Disk) : Prop where
  ends : ∃ fuel, (ensureDirectory path uid gid disk fuel).isSome
  directory : ∀ fuel disk', ensureDirectory path uid gid disk fuel = some (0, disk') →
    disk'.IsDirectory path

/-- Once the directories in front of it are made in order, no part of the path is a link to nowhere
that has another name behind it, and none is a directory that makes its entries itself and lacks the
one behind it. -/
def NoGap (path : CStr) (disk : Disk) : Prop :=
  ∀ n t, 0 < n → n < (pathRoute path.bytes).steps.length →
    disk.tree.made MAXSYMLINKS disk.cwd (pathRoute path.bytes) n = some t →
    ¬ t.Dangling MAXSYMLINKS disk.cwd ((pathRoute path.bytes).upTo n) ∧
      ¬ t.Barren MAXSYMLINKS disk.cwd ((pathRoute path.bytes).upTo (n + 1))

/-- A success leaves a directory at the path. -/
theorem ensureDirectory_eq_zero (h : ensureDirectory path uid gid disk fuel = some (0, disk')) :
    disk'.IsDirectory path := by
  rw [ensureDirectory] at h
  split at h
  · cases h
  · exact ensuredir_eq_zero (CutPath.whole path) h

/-- **What `ensure_directory` ensures.** It ends, and with zero only when the path is a directory,
exactly when the path is refused at once or nothing is missing behind an entry that is there. -/
theorem ensureDirectory_iff (path : CStr) (uid gid : Int) (disk : Disk) :
    EnsuresDirectory path uid gid disk ↔ PATH_MAX ≤ path.length ∨ NoGap path disk := by
  have hmax : PATH_MAX ≤ INT_MAX := by decide
  have hends : EnsuresDirectory path uid gid disk ↔
      ∃ fuel, (ensureDirectory path uid gid disk fuel).isSome :=
    ⟨fun h => h.ends, fun h => ⟨h, fun _ _ => ensureDirectory_eq_zero⟩⟩
  rw [hends]
  obtain hlength | hlength := Nat.lt_or_ge path.length PATH_MAX
  · have hrun : ∀ fuel, ensureDirectory path uid gid disk fuel =
        ensuredir path.length uid gid fuel (path.bytes ++ [0]) path.length disk := by
      intro fuel
      rw [ensureDirectory, if_neg (by omega)]
    simp only [hrun]
    rw [ensuredir_ends_iff path uid gid disk hlength, FileTree.smooth_iff,
      or_iff_right (Nat.not_le.2 hlength)]
    rfl
  · refine iff_of_true ⟨1, ?_⟩ (.inl hlength)
    rw [ensureDirectory, ensuredir_long path uid gid disk hlength]
    split <;> rfl

/-- A tree with a link to nowhere. -/
def linkTree : FileTree (List UInt8) DiskErrno where
  kind loc :=
    if loc = [] then some .directory
    else if loc = [[97]] then some (.link ⟨true, [.down [98]]⟩)
    else none
  refused _ := none
  uncreatable _ := none
  absent _ h := by cases h
  root := rfl
  closed name loc h := by
    by_cases hloc : loc = []
    · rw [if_pos hloc]
    · exact absurd (by simp [hloc]) h

/-- A directory behind a link to nowhere is tried for ever. -/
theorem ensureDirectory_loops : ¬ ∀ (path : CStr) (uid gid : Int) (disk : Disk),
    EnsuresDirectory path uid gid disk := by
  intro hall
  let disk : Disk := ⟨linkTree, [], fun _ => (0, 0), (0, 0), fun _ => false⟩
  obtain ⟨⟨fuel, hfuel⟩, -⟩ := hall (CStr.lit "/a/b") (-1) (-1) disk
  have hlength : (CStr.lit "/a/b").length < PATH_MAX := by decide
  have hshort : ¬ (CStr.lit "/a/b").length > INT_MAX := by decide
  rw [ensureDirectory, if_neg hshort] at hfuel
  have hsmooth := (ensuredir_ends_iff _ (-1) (-1) disk hlength).1 ⟨fuel, hfuel⟩
  exact hsmooth 1 linkTree (by decide) (by decide) rfl rfl

end SecLsmManager
