import SecLsmManager.Protocol.Prot

/-!
# Reading a whole file

`read_file` of `file-utils.c`, which reads the templates. What `read` meets in the file is an
argument (`FileEvent`), as is what `malloc` and `realloc` give. The loop takes an interruption for
the end of the file, so that what follows it is missing (`readFile_whole_iff`).
-/

namespace SecLsmManager

open Lib

def EINTR : Int := 4
def BLOCKSIZE : Nat := 8192

/-- What `read` meets next in a file: some bytes, or a failure. At the end it reads nothing. -/
inductive FileEvent
  | bytes (first : UInt8) (more : List UInt8)
  | error (e : Errno)

/-- `read` of at most `count` bytes, and what it leaves. -/
def fileRead (count : Nat) : List FileEvent → ReadAnswer × List FileEvent
  | [] => (.data [], [])
  | .bytes first more :: events =>
    (.data ((first :: more).take count),
      match (first :: more).drop count with
      | [] => events
      | next :: rest => .bytes next rest :: events)
  | .error e :: events => (.error e, events)

/-- `st_mode & S_IFMT`, with `st_size`. -/
inductive FileMode
  | regular (size : Nat)
  | stream
  | other

/-- How `read_file` ends: it returns a block of `alloc` bytes, or `NULL` for lack of memory or for
another error. It is a fault when it accesses a byte outside of the block. -/
inductive ReadResult
  | text (block : Nat → UInt8) (alloc : Nat)
  | oom
  | error
  | fault

/-- The locals of `read_file`, with the block and its size. -/
structure ReadLocals where
  result : Nat → UInt8
  alloc : Nat
  size : Nat
  pos : Nat

/-- What follows the loop. -/
def ReadLocals.finish (r : ReadLocals) : ReadResult :=
  if r.pos < r.alloc then .text (Function.update r.result r.pos 0) r.alloc else .fault

/-- The locals after `read` has stored some bytes. -/
def ReadLocals.store (r : ReadLocals) (bytes : List UInt8) : ReadLocals :=
  { r with result := writeCells r.result r.pos bytes, pos := r.pos + bytes.length }

/-- The locals after `realloc`, where `fresh` is what the new memory holds. -/
def ReadLocals.grow (r : ReadLocals) (fresh : Nat → UInt8) : ReadLocals :=
  { r with
    result := fun k => if k < r.alloc then r.result k else fresh k
    alloc := r.pos + BLOCKSIZE + 1
    size := r.pos + BLOCKSIZE }

/-- The loop of `read_file`; `none` if it has not ended after `fuel` turns. -/
def readLoop (allocs : Nat → Option (Nat → UInt8)) :
    Nat → ReadLocals → List FileEvent → Option ReadResult
  | 0, _, _ => none
  | fuel + 1, r, events =>
    let count := r.size - r.pos + 1
    if r.alloc < r.pos + count then some .fault
    else
      match fileRead count events with
      | (.error e, _) => some (if e.val = EINTR then r.finish else .error)
      | (.data [], _) => some r.finish
      | (.data (first :: more), events) =>
        let r := r.store (first :: more)
        if r.pos > r.size then
          match allocs 0 with
          | none => some .oom
          | some fresh => readLoop (fun n => allocs (n + 1)) fuel (r.grow fresh) events
        else readLoop allocs fuel r events

/-- More turns than the loop makes. -/
def turns : List FileEvent → Nat
  | [] => 1
  | .bytes _ more :: events => more.length + 1 + turns events
  | .error _ :: _ => 1

/-- `read_file`, where `opened` says whether `open` gives a descriptor. -/
def readFile (opened : Bool) (mode : FileMode) (allocs : Nat → Option (Nat → UInt8))
    (events : List FileEvent) : Option ReadResult :=
  if opened then
    let start (size : Nat) :=
      match allocs 0 with
      | none => some .oom
      | some result =>
        readLoop (fun n => allocs (n + 1)) (turns events) ⟨result, size + 1, size, 0⟩ events
    match mode with
    | .regular size => start size
    | .stream => start BLOCKSIZE
    | .other => some .error
  else some .error

/-! ## What is to be read -/

/-- The call of `read` is interrupted. -/
def FileEvent.Interrupts : FileEvent → Prop
  | .bytes _ _ => False
  | .error e => e.val = EINTR

instance (event : FileEvent) : Decidable event.Interrupts := by
  cases event <;> unfold FileEvent.Interrupts <;> infer_instance

/-- The bytes of the file are no NUL. -/
def FileEvent.NoNul : FileEvent → Prop
  | .bytes first more => 0 ∉ first :: more
  | .error _ => True

/-- What the file delivers, with the interruptions left out: its content, or an error. -/
def delivered : List FileEvent → Option (List UInt8)
  | [] => some []
  | .bytes first more :: events => (delivered events).map (first :: more ++ ·)
  | .error e :: events => if e.val = EINTR then delivered events else none

/-- The block holds the content followed by a NUL. -/
structure HoldsText (block : Nat → UInt8) (alloc : Nat) (content : List UInt8) : Prop where
  fits : content.length < alloc
  stored : cells block 0 content.length = content
  ended : block content.length = 0

/-- The file is read as a whole, or not at all, for an error of the file or an allocation that
fails. -/
def ReadsWhole (allocs : Nat → Option (Nat → UInt8)) (events : List FileEvent) :
    ReadResult → Prop
  | .text block alloc => ∃ content, delivered events = some content ∧ HoldsText block alloc content
  | .oom => ∃ n, allocs n = none
  | .error => delivered events = none
  | .fault => False

/-- Whatever the allocations give, the loop ends and a regular file with `st_size` `size` is read as
a whole, or not at all. -/
def FileReadsWhole (size : Nat) (events : List FileEvent) : Prop :=
  ∀ allocs, ∃ result, readFile true (.regular size) allocs events = some result ∧
    ReadsWhole allocs events result

/-- An interruption comes behind all bytes, and no other error comes behind it. -/
def Settled : List FileEvent → Prop
  | [] => True
  | .bytes _ _ :: events => Settled events
  | .error e :: events => e.val = EINTR → ∀ event ∈ events, event.Interrupts

/-- What the loop takes: it stops at an interruption. -/
def taken (events : List FileEvent) : Option (List UInt8) :=
  delivered (events.takeWhile fun event => ¬ event.Interrupts)

/-- Bytes that come are taken, as long as no interruption came before. -/
theorem taken_bytes (first : UInt8) (more : List UInt8) (events : List FileEvent) :
    taken (.bytes first more :: events) = (taken events).map (first :: more ++ ·) := by
  rw [taken, List.takeWhile_cons_of_pos (by simp [FileEvent.Interrupts]), delivered]
  rfl

/-- At an error the loop stops: at an interruption with what it has, else with nothing. -/
theorem taken_error (e : Errno) (events : List FileEvent) :
    taken (.error e :: events) = if e.val = EINTR then some [] else none := by
  by_cases he : e.val = EINTR
  · rw [taken, List.takeWhile_cons_of_neg (by simp [FileEvent.Interrupts, he]), if_pos he]
    rfl
  · rw [taken, List.takeWhile_cons_of_pos (by simp [FileEvent.Interrupts, he]), delivered,
      if_neg he, if_neg he]

/-- A file that delivers nothing has interruptions only. -/
theorem delivered_eq_nil_iff (events : List FileEvent) :
    delivered events = some [] ↔ ∀ event ∈ events, event.Interrupts := by
  induction events with
  | nil => exact iff_of_true rfl (List.forall_mem_nil _)
  | cons event events ih =>
    rw [List.forall_mem_cons]
    cases event with
    | bytes first more =>
      rw [delivered]
      refine iff_of_false (fun h => ?_) fun h => h.1
      obtain ⟨rest, -, hrest⟩ := Option.map_eq_some_iff.1 h
      cases hrest
    | error e =>
      rw [delivered, FileEvent.Interrupts]
      by_cases he : e.val = EINTR
      · rw [if_pos he, ih]
        exact (and_iff_right he).symm
      · rw [if_neg he]
        exact iff_of_false nofun fun h => he h.1

/-- The loop takes all exactly when the interruptions come last. -/
theorem taken_eq_delivered_iff (events : List FileEvent) :
    taken events = delivered events ↔ Settled events := by
  induction events with
  | nil => exact iff_of_true rfl trivial
  | cons event events ih =>
    cases event with
    | bytes first more =>
      have hinj : Function.Injective (Option.map (first :: more ++ ·)) :=
        Option.map_injective (List.append_right_injective (first :: more))
      rw [taken_bytes, delivered, hinj.eq_iff, ih, Settled]
    | error e =>
      rw [taken_error, delivered, Settled]
      by_cases he : e.val = EINTR
      · rw [if_pos he, if_pos he, forall_prop_of_true he, ← delivered_eq_nil_iff]
        exact eq_comm
      · rw [if_neg he, if_neg he]
        exact iff_of_true rfl fun h => absurd h he

/-- What is delivered has no NUL if no event has. -/
theorem delivered_nonul {events : List FileEvent} (h : ∀ event ∈ events, event.NoNul)
    {content : List UInt8} (hcontent : delivered events = some content) : 0 ∉ content := by
  induction events generalizing content with
  | nil =>
    cases hcontent
    exact List.not_mem_nil
  | cons event events ih =>
    obtain ⟨hevent, hrest⟩ := List.forall_mem_cons.1 h
    cases event with
    | bytes first more =>
      obtain ⟨rest, hdelivered, rfl⟩ := Option.map_eq_some_iff.1 hcontent
      rw [List.mem_append, not_or]
      exact ⟨hevent, ih hrest hdelivered⟩
    | error e =>
      rw [delivered] at hcontent
      split at hcontent
      · exact ih hrest hcontent
      · cases hcontent

/-- A block holds one text without NUL at most. -/
theorem HoldsText.unique {block : Nat → UInt8} {alloc : Nat} {c c' : List UInt8}
    (h : HoldsText block alloc c) (h' : HoldsText block alloc c') (hc : 0 ∉ c) (hc' : 0 ∉ c') :
    c = c' := by
  have notLt : ∀ {c c' : List UInt8}, HoldsText block alloc c → HoldsText block alloc c' →
      0 ∉ c' → ¬ c.length < c'.length := by
    intro c c' h h' hc' hlt
    have hget : c'[c.length] = block c.length := by
      have hcell := getElem_cells block 0 c'.length c.length (by rwa [cells_length])
      rw [Nat.zero_add] at hcell
      rw [← hcell]
      congr 1
      exact h'.stored.symm
    exact hc' (h.ended ▸ hget ▸ List.getElem_mem hlt)
  have hlen : c.length = c'.length :=
    Nat.le_antisymm (Nat.le_of_not_lt (notLt h' h hc)) (Nat.le_of_not_lt (notLt h h' hc'))
  rw [← h.stored, hlen, h'.stored]

/-! ## The loop -/

/-- The locals when the content `content` is in the block. -/
structure ReadLocals.Holds (r : ReadLocals) (content : List UInt8) : Prop where
  pos : r.pos = content.length
  stored : cells r.result 0 r.pos = content
  pos_le : r.pos ≤ r.size
  alloc : r.alloc = r.size + 1

/-- Before the first read. -/
theorem ReadLocals.holds_start (fresh : Nat → UInt8) (size : Nat) :
    ReadLocals.Holds ⟨fresh, size + 1, size, 0⟩ [] := ⟨rfl, rfl, Nat.zero_le size, rfl⟩

/-- The NUL behind the content is inside the block. -/
theorem ReadLocals.Holds.finish {r : ReadLocals} {content : List UInt8} (h : r.Holds content) :
    ∃ block, r.finish = .text block r.alloc ∧ HoldsText block r.alloc content := by
  have hlt : r.pos < r.alloc := by
    rw [h.alloc]
    exact Nat.lt_succ_of_le h.pos_le
  refine ⟨_, if_pos hlt, h.pos ▸ hlt, ?_, ?_⟩
  · rw [cells_update_outside _ _ (.inr (by rw [h.pos, Nat.zero_add])), ← h.pos, h.stored]
  · rw [h.pos, Function.update_self]

/-- What is read is stored behind the content. -/
theorem cells_store (r : ReadLocals) (bytes : List UInt8) :
    cells (r.store bytes).result 0 (r.store bytes).pos = cells r.result 0 r.pos ++ bytes := by
  have hbefore : cells (writeCells r.result r.pos bytes) 0 r.pos = cells r.result 0 r.pos :=
    cells_congr fun k _ hk => writeCells_of_lt _ _ (by omega)
  change cells (writeCells r.result r.pos bytes) 0 (r.pos + bytes.length) = _
  rw [cells_append, hbefore, Nat.zero_add, cells_writeCells]

/-- It stays in the block while there is room. -/
theorem ReadLocals.Holds.store {r : ReadLocals} {content bytes : List UInt8} (h : r.Holds content)
    (hroom : (r.store bytes).pos ≤ r.size) : (r.store bytes).Holds (content ++ bytes) where
  pos := by
    rw [List.length_append, ← h.pos]
    rfl
  stored := by rw [cells_store, h.stored]
  pos_le := hroom
  alloc := h.alloc

/-- A larger block holds what the full one held. -/
theorem ReadLocals.Holds.grow {r : ReadLocals} {content bytes : List UInt8} (h : r.Holds content)
    (hroom : (r.store bytes).pos ≤ r.alloc) (fresh : Nat → UInt8) :
    ((r.store bytes).grow fresh).Holds (content ++ bytes) where
  pos := by
    rw [List.length_append, ← h.pos]
    rfl
  stored := by
    rw [← h.stored, ← cells_store]
    refine cells_congr fun k _ hk => if_pos ?_
    rw [Nat.zero_add] at hk
    exact Nat.lt_of_lt_of_le hk hroom
  pos_le := Nat.le_add_right _ _
  alloc := rfl

/-- What one call of `read` takes from some bytes. -/
theorem fileRead_bytes {count : Nat} (h : 0 < count) (first : UInt8) (more : List UInt8)
    (events : List FileEvent) : ∃ rest events',
      fileRead count (.bytes first more :: events) = (.data (first :: rest), events') ∧
      (first :: rest).length ≤ count ∧ turns events' < turns (.bytes first more :: events) ∧
      taken (.bytes first more :: events) = (taken events').map (first :: rest ++ ·) := by
  obtain ⟨n, rfl⟩ := Nat.exists_eq_succ_of_ne_zero (Nat.ne_of_gt h)
  have hlen : (first :: more.take n).length ≤ n + 1 := by
    rw [List.length_cons]
    exact Nat.succ_le_succ (List.length_take_le _ _)
  cases hdrop : more.drop n with
  | nil =>
    have htake : more.take n = more := List.take_of_length_le (List.drop_eq_nil_iff.1 hdrop)
    refine ⟨more.take n, events, ?_, hlen, ?_, ?_⟩
    · rw [fileRead, List.take_succ_cons, List.drop_succ_cons, hdrop]
    · rw [turns]
      omega
    · rw [htake, taken_bytes]
  | cons next rest =>
    have hmore : more.take n ++ next :: rest = more := hdrop ▸ List.take_append_drop n more
    refine ⟨more.take n, .bytes next rest :: events, ?_, hlen, ?_, ?_⟩
    · rw [fileRead, List.take_succ_cons, List.drop_succ_cons, hdrop]
    · have hcount := congrArg List.length hmore
      rw [List.length_append, List.length_cons] at hcount
      rw [turns, turns]
      omega
    · rw [taken_bytes, taken_bytes, Option.map_map]
      congr 1
      funext text
      conv_lhs => rw [← hmore]
      simp

/-- How the loop ends, from a block that holds `content`. -/
def Ends (allocs : Nat → Option (Nat → UInt8)) (content : List UInt8) (events : List FileEvent) :
    ReadResult → Prop
  | .text block alloc => ∃ more, taken events = some more ∧ HoldsText block alloc (content ++ more)
  | .oom => ∃ n, allocs n = none
  | .error => taken events = none
  | .fault => False

/-- The ends of the other turns are those of a turn that has taken `bytes`. -/
theorem Ends.after {allocs allocs' : Nat → Option (Nat → UInt8)} {content bytes : List UInt8}
    {events events' : List FileEvent} {result : ReadResult}
    (hallocs : ∀ n, allocs' n = none → ∃ n, allocs n = none)
    (htaken : taken events = (taken events').map (bytes ++ ·))
    (h : Ends allocs' (content ++ bytes) events' result) : Ends allocs content events result := by
  cases result with
  | text block alloc =>
    obtain ⟨text, htext, hblock⟩ := h
    exact ⟨bytes ++ text, by rw [htaken, htext]; rfl, by rwa [← List.append_assoc]⟩
  | oom =>
    obtain ⟨n, hn⟩ := h
    exact hallocs n hn
  | error => exact htaken.trans (congrArg _ h)
  | fault => exact h

/-- The loop ends, as `Ends` says, by induction on its turns. -/
theorem readLoop_spec (allocs : Nat → Option (Nat → UInt8)) {fuel : Nat} {r : ReadLocals}
    {content : List UInt8} (h : r.Holds content) {events : List FileEvent}
    (hfuel : turns events ≤ fuel) :
    ∃ result, readLoop allocs fuel r events = some result ∧ Ends allocs content events result := by
  induction fuel generalizing allocs r content events with
  | zero =>
    have hpos : 0 < turns events := by
      cases events with
      | nil => exact Nat.succ_pos _
      | cons event events => cases event <;> rw [turns] <;> omega
    omega
  | succ fuel ih =>
    have hle := h.pos_le
    have hinside : ¬ r.alloc < r.pos + (r.size - r.pos + 1) := by
      rw [h.alloc]
      omega
    obtain ⟨block, hfinish, hholds⟩ := h.finish
    have hended : Ends allocs content [] r.finish := by
      rw [hfinish]
      exact ⟨[], rfl, by rwa [List.append_nil]⟩
    rw [readLoop]
    simp only [if_neg hinside]
    cases events with
    | nil => exact ⟨_, rfl, hended⟩
    | cons event events =>
      cases event with
      | error e =>
        refine ⟨_, rfl, ?_⟩
        by_cases he : e.val = EINTR
        · rw [if_pos he, hfinish]
          exact ⟨[], by rw [taken_error, if_pos he], by rwa [List.append_nil]⟩
        · rw [if_neg he]
          exact (taken_error e events).trans (if_neg he)
      | bytes first more =>
        obtain ⟨rest, events', hread, hlen, hturns, htaken⟩ :=
          fileRead_bytes (Nat.succ_pos (r.size - r.pos)) first more events
        rw [hread]
        have hroom : (r.store (first :: rest)).pos ≤ r.alloc := by
          change r.pos + (first :: rest).length ≤ r.alloc
          rw [h.alloc]
          omega
        by_cases hfull : (r.store (first :: rest)).pos > (r.store (first :: rest)).size
        · simp only
          rw [if_pos hfull]
          cases hfresh : allocs 0 with
          | none => exact ⟨.oom, rfl, 0, hfresh⟩
          | some fresh =>
            obtain ⟨result, hrun, hends⟩ := ih (fun n => allocs (n + 1)) (h.grow hroom fresh)
              (Nat.le_of_lt_succ (Nat.lt_of_lt_of_le hturns hfuel))
            exact ⟨result, hrun, hends.after (fun n hn => ⟨n + 1, hn⟩) htaken⟩
        · simp only
          rw [if_neg hfull]
          obtain ⟨result, hrun, hends⟩ := ih allocs (h.store (Nat.le_of_not_lt hfull))
            (Nat.le_of_lt_succ (Nat.lt_of_lt_of_le hturns hfuel))
          exact ⟨result, hrun, hends.after (fun n hn => ⟨n, hn⟩) htaken⟩

/-- So does `read_file`, which opens the file and allocates its first block. -/
theorem readFile_spec (size : Nat) (allocs : Nat → Option (Nat → UInt8))
    (events : List FileEvent) : ∃ result,
      readFile true (.regular size) allocs events = some result ∧ Ends allocs [] events result := by
  rw [readFile, if_pos rfl]
  simp only
  cases hfresh : allocs 0 with
  | none => exact ⟨.oom, rfl, 0, hfresh⟩
  | some fresh =>
    obtain ⟨result, hrun, hends⟩ := readLoop_spec (fun n => allocs (n + 1))
      (ReadLocals.holds_start fresh size) (Nat.le_refl (turns events))
    refine ⟨result, hrun, ?_⟩
    exact @Ends.after _ _ [] [] _ _ _ (fun n hn => ⟨n + 1, hn⟩) (by simp) hends

/-- `read_file` ends, and it accesses nothing outside of the block, whatever the file is. -/
theorem readFile_ends (opened : Bool) (mode : FileMode) (allocs : Nat → Option (Nat → UInt8))
    (events : List FileEvent) :
    ∃ result, readFile opened mode allocs events = some result ∧ result ≠ .fault := by
  have hregular : ∀ size, ∃ result, readFile true (.regular size) allocs events = some result ∧
      result ≠ .fault := by
    intro size
    obtain ⟨result, hrun, hends⟩ := readFile_spec size allocs events
    refine ⟨result, hrun, ?_⟩
    rintro rfl
    exact hends
  cases opened with
  | false => exact ⟨.error, rfl, nofun⟩
  | true =>
    cases mode with
    | regular size => exact hregular size
    | stream => exact hregular BLOCKSIZE
    | other => exact ⟨.error, rfl, nofun⟩

/-- **When a file is read as a whole.** A regular file is read as a whole, or with `NULL` not at
all, exactly when no interruption comes before a byte or before an error. -/
theorem readFile_whole_iff (size : Nat) (events : List FileEvent)
    (hnonul : ∀ event ∈ events, event.NoNul) :
    FileReadsWhole size events ↔ Settled events := by
  rw [← taken_eq_delivered_iff]
  constructor
  · intro h
    -- with memory for all, the loop ends with what it takes
    obtain ⟨result, hrun, hends⟩ := readFile_spec size (fun _ => some fun _ => 0) events
    obtain ⟨result', hrun', hwhole⟩ := h fun _ => some fun _ => 0
    obtain rfl := Option.some.inj (hrun.symm.trans hrun')
    cases result with
    | text block alloc =>
      obtain ⟨text, htext, hblock⟩ := hends
      obtain ⟨content, hcontent, hblock'⟩ := hwhole
      rw [List.nil_append] at hblock
      have htaken : ∀ event ∈ events.takeWhile (fun event => ¬ event.Interrupts), event.NoNul :=
        fun event hmem => hnonul event ((List.takeWhile_prefix _).subset hmem)
      rw [htext, hcontent, hblock.unique hblock' (delivered_nonul htaken htext)
        (delivered_nonul hnonul hcontent)]
    | oom =>
      obtain ⟨n, hn⟩ := hends
      cases hn
    | error => exact hends.trans hwhole.symm
    | fault => exact hends.elim
  · intro hsame allocs
    obtain ⟨result, hrun, hends⟩ := readFile_spec size allocs events
    refine ⟨result, hrun, ?_⟩
    cases result with
    | text block alloc =>
      obtain ⟨text, htext, hblock⟩ := hends
      exact ⟨text, hsame.symm.trans htext, hblock⟩
    | oom => exact hends
    | error => exact hsame.symm.trans hends
    | fault => exact hends

/-- The interruption of `read`. -/
def interruption : FileEvent := .error ⟨EINTR, by decide⟩

/-- A file of three bytes, read in two parts and interrupted behind them. -/
theorem readFile_whole_parts : FileReadsWhole 1 [.bytes 97 [98], .bytes 99 [], interruption] :=
  (readFile_whole_iff 1 [.bytes 97 [98], .bytes 99 [], interruption]
    (by simp [FileEvent.NoNul, interruption])).2 fun _ => List.forall_mem_nil _

/-- An interruption between two bytes leaves the second one out. -/
theorem readFile_truncates : ¬ ∀ (size : Nat) (events : List FileEvent),
    (∀ event ∈ events, event.NoNul) → FileReadsWhole size events := by
  intro h
  have hnonul : ∀ event ∈ [.bytes 97 [], interruption, .bytes 98 []], event.NoNul := by
    simp [FileEvent.NoNul, interruption]
  have hsettled := (readFile_whole_iff 2 _ hnonul).1 (h 2 _ hnonul)
  exact hsettled rfl (.bytes 98 []) List.mem_cons_self

end SecLsmManager
