import SecLsmManager.Protocol.Receiver

/-!
# Parsing a stream

A handler driven as `client_process_input` does: `prot_get` and `prot_next` until there is no
record left, then a read. The invariant `Feed.Inv` compares what it has reported with the
grammar of the whole stream, `Marks.linesWithin`, whatever the reads were.
-/

namespace SecLsmManager

open Lib

/-- A handler, the bytes that are still to be read, the records it reported and the last negative
code of `prot_get`. -/
structure Feed where
  prot : Prot
  input : List UInt8
  records : List (List CStr)
  status : Int

/-- `prot_get` and `prot_next`, until the code is negative. A record takes two bytes at least, so
there are fewer turns than `n` when there are fewer bytes. -/
def Feed.drainLoop : Nat → Feed → Feed
  | 0, f => f
  | n + 1, f =>
    let (rc, prot) := protGet f.prot
    if rc > 0 then
      drainLoop n { f with prot := protNext prot, records := f.records ++ [protArgs prot] }
    else if rc < 0 then { f with prot, status := rc }
    else drainLoop n { f with prot := protNext prot }

def Feed.drain (f : Feed) : Feed := f.drainLoop (f.prot.inbuf.count + 1)

/-- A read of at most `n + 1` bytes. -/
def Feed.read (f : Feed) (n : Nat) : Feed :=
  let (rc, prot) := protRead f.prot (.data (f.input.take (n + 1)))
  { f with prot, input := f.input.drop rc.toNat }

/-- The handler fed with reads of the given sizes, up to `-EMSGSIZE`. -/
def Feed.run (f : Feed) : List Nat → Feed
  | [] => f.drain
  | n :: cuts => if f.drain.status = -EMSGSIZE then f.drain else run (f.drain.read n) cuts

/-- A handler after `prot_create` and a stream to read. -/
def Feed.init (mem : ProtMem) (input : List UInt8) : Feed :=
  { prot := protReset mem, input, records := [], status := 0 }

/-! ## What is reported -/

/-- A feed that has read `R` and waits with the bytes `b` in its buffer. -/
structure Feed.Inv (f : Feed) (bs R b : List UInt8) : Prop where
  stream : R ++ f.input = bs
  pending : Pending f.prot b
  received : Received R f.records b
  no_empty : f.prot.allowEmpty = false
  /-- `R` is no longer than what the grammar reads -/
  grammar : protMarks.GoesOn PROT_MAX_BUFFER_LENGTH R

/-- A feed that is drained: it has reported every record of `R`. -/
structure Feed.Drained (f : Feed) (bs R : List UInt8) : Prop
    extends f.Inv bs R (protMarks.rest R) where
  records : f.records = reports (protMarks.lines R)
  status : f.status = waitCode (protMarks.rest R)

/-- The invariant holds before the first byte. -/
theorem Feed.inv_init (mem : ProtMem) (bs : List UInt8) : (Feed.init mem bs).Inv bs [] [] where
  stream := rfl
  pending := pending_protReset _
  received := .nil
  no_empty := rfl
  grammar := protMarks.goesOn_nil _

/-- The loop takes out all complete records, by induction on the bytes that wait. -/
theorem Feed.Inv.drainLoop : ∀ {n : Nat} {f : Feed} {bs R b : List UInt8}, f.Inv bs R b →
    b.length < n → (f.drainLoop n).Drained bs R
  | 0, _, _, _, _, _, hn => absurd hn (Nat.not_lt_zero _)
  | n + 1, f, bs, R, b, h, hn => by
    obtain ⟨k, p', h1, ⟨line, b', rfl, h2, h3, h4, h5⟩ | ⟨b', rfl, h2, h3, h4⟩⟩ :=
      protGet_spec h.pending h.no_empty
    · have hpos : ((reported line).length : Int) > 0 := by
        have := reported_length_pos h2
        omega
      obtain ⟨h6, h7⟩ := h5.next
      have hr := h.received.skip.line h3
      rw [show reports [line] = [report line] by simp [reports, h2]] at hr
      simp only [Feed.drainLoop, h4, if_pos hpos, h5.args]
      refine Feed.Inv.drainLoop (b := b') ⟨h.stream, h6, hr, ?_, h.grammar⟩ ?_
      · exact h7.2.2.2.trans (h1.2.2.2.trans h.no_empty)
      · simp only [List.length_append, List.length_cons, List.length_replicate] at hn
        omega
    · have hlt := waitCode_neg b'
      have hle : ¬ waitCode b' > 0 := by omega
      simp only [Feed.drainLoop, h3, if_neg hle, if_pos hlt]
      have hr := h.received.skip
      obtain ⟨h5, rfl⟩ := hr.noEnd h2
      exact { stream := h.stream, pending := h4, received := hr
              no_empty := h1.2.2.2.trans h.no_empty
              grammar := h.grammar, records := h5, status := rfl }

/-- Draining reports every record that was read. -/
theorem Feed.Inv.drain {f : Feed} {bs R b : List UInt8} (h : f.Inv bs R b) :
    f.drain.Drained bs R :=
  h.drainLoop (by rw [h.pending.length]; exact Nat.lt_succ_self _)

/-- A read moves bytes from the input to the stream that was read. -/
theorem Feed.Drained.read {f : Feed} {bs R : List UInt8} (h : f.Drained bs R) (n : Nat) :
    ∃ R' b, (f.read n).Inv bs R' b := by
  obtain ⟨x, h1, h2, h3, -⟩ := h.pending.readInput f.input n
  refine ⟨R ++ x, _, ?_, h2, h.received.append x, h.no_empty, h.grammar.append _ h3⟩
  simp only [Feed.read]
  rw [List.append_assoc, h1, h.stream]

/-- The feed is drained when its run ends. -/
theorem Feed.Inv.run {f : Feed} {bs R b : List UInt8} (h : f.Inv bs R b) (cuts : List Nat) :
    ∃ R', (f.run cuts).Drained bs R' := by
  induction cuts generalizing f R b with
  | nil => exact ⟨R, h.drain⟩
  | cons n cuts ih =>
    rw [Feed.run]
    split
    · exact ⟨R, h.drain⟩
    · obtain ⟨R', b', h'⟩ := h.drain.read n
      exact ih h'

/-! ## The accesses of the decoder -/

/-- The states of the input side of a handler: what reads, turns of `prot_get` and `prot_next`
in any order make of the created one. -/
inductive Handled (mem : ProtMem) : Prot → Prop
  | reset : Handled mem (protReset mem)
  | read {p : Prot} (answer : ReadAnswer) : Handled mem p →
      Handled mem (protRead p answer).2
  | decode {p : Prot} : Handled mem p →
      Handled mem (protDecode p).2
  | next {p : Prot} : Handled mem p →
      Handled mem (protNext p)

variable {mem : ProtMem}

/-- Each state of the input side waits for a record or holds one. -/
theorem Handled.state {p : Prot} (h : Handled mem p) :
    (∃ b, Pending p b) ∨ ∃ line b, Holding p line b := by
  induction h with
  | reset => exact .inl ⟨[], pending_protReset _⟩
  | @read p answer _ ih =>
    cases answer with
    | data bytes =>
      rcases ih with ⟨b, h⟩ | ⟨line, b, h⟩
      · exact .inl ⟨_, h.read bytes⟩
      · exact .inr ⟨line, _, h.read bytes⟩
    | error e => rwa [protRead_error]
  | @decode p _ ih =>
    rcases ih with ⟨b, h⟩ | ⟨line, b, h⟩
    · obtain ⟨p', -, ⟨line, b', -, -, h1, h2⟩ | ⟨-, h1, h2⟩⟩ := protDecode_spec h
      · rw [h1]
        exact .inr ⟨line, b', h2⟩
      · rw [h1]
        exact .inl ⟨b, h2⟩
    · have hge : ¬ p.fields.count < 0 := by
        rw [h.count]
        exact Int.not_lt.2 (Int.natCast_nonneg _)
      rw [show protDecode p = (0, p) from if_neg hge]
      exact .inr ⟨line, b, h⟩
  | next _ ih =>
    rcases ih with ⟨b, h⟩ | ⟨line, b, h⟩
    · rw [h.next]
      exact .inl ⟨b, h⟩
    · exact .inl ⟨b, h.next.1⟩

/-- Wherever the decoder is called, it reads no further than the end of the record and writes
behind the next unread byte. -/
theorem Handled.accesses {p : Prot} (h : Handled mem p)
    (hc : p.fields.count < 0) (hf : (bufScanEndRecord p.inbuf).1 = true) :
    ∀ a ∈ (bufDecode (bufScanEndRecord p.inbuf).2 p.fields).accesses,
      a.Within (bufScanEndRecord p.inbuf).2.pos := by
  rcases h.state with ⟨b, h⟩ | ⟨line, b, h⟩
  · exact h.accesses hf
  · rw [h.count] at hc
    exact absurd hc (Int.not_lt.2 (Int.natCast_nonneg _))

/-- `prot_get` stays in the memory of the decoder. -/
theorem Handled.get {p : Prot} (h : Handled mem p) :
    Handled mem (protGet p).2 := by
  unfold protGet
  generalize p.inbuf.count + 1 = n
  induction n generalizing p with
  | zero => exact h
  | succ n ih =>
    simp only [protGetLoop]
    split
    · exact h.decode
    · split
      · exact ih h.decode.next
      · exact h.decode

/-- So does taking out all complete records. -/
theorem Handled.drainLoop {f : Feed} (h : Handled mem f.prot) (n : Nat) :
    Handled mem (f.drainLoop n).prot := by
  induction n generalizing f with
  | zero => exact h
  | succ n ih =>
    simp only [Feed.drainLoop]
    split
    · exact ih h.get.next
    · split
      · exact h.get
      · exact ih h.get.next

/-- So does the whole stream, however it is cut. -/
theorem Handled.run {f : Feed} (h : Handled mem f.prot) (cuts : List Nat) :
    Handled mem (f.run cuts).prot := by
  induction cuts generalizing f with
  | nil => exact h.drainLoop _
  | cons n cuts ih =>
    simp only [Feed.run]
    split
    · exact h.drainLoop _
    · exact ih (.read (.data (f.drain.input.take (n + 1))) (h.drainLoop _))

/-! ## Main result -/

/-- At the end of the stream, or on `-EMSGSIZE`, what was reported is what the grammar gives. -/
theorem Feed.Drained.grammar_eq {f : Feed} {bs R : List UInt8} (h : f.Drained bs R)
    (hend : f.input = [] ∨ f.status = -EMSGSIZE) :
    protMarks.linesWithin PROT_MAX_BUFFER_LENGTH [] bs =
      (protMarks.lines R, decide (f.status = -EMSGSIZE)) := by
  have hne : -EAGAIN ≠ -EMSGSIZE := by decide
  rw [← h.stream]
  rcases h.pending.waitCode with ⟨hs, hlen⟩ | ⟨hs, hlen⟩
  · rw [h.grammar.full _ (Nat.le_of_eq hlen.symm), h.status, hs]
    rfl
  · rw [h.status, hs] at hend
    rw [hend.resolve_right hne, List.append_nil, h.grammar.whole, h.status, hs]
    simp [hne, hlen]

/-- **Parsing a stream.** For any stream and any reads, the reported records are those of the
bytes `R` read so far; the wait ends with `-EMSGSIZE` when what follows the last record of `R`
fills the buffer, with `-EAGAIN` otherwise. At the end of the stream, or on `-EMSGSIZE`, records
and code are those of the grammar of the whole stream, for any reads. In all the states that the
handler goes through, the decoder respects the end of the record and the unread bytes. -/
theorem stream_parsing (mem : ProtMem) (bs : List UInt8) (cuts : List Nat) :
    let f := (Feed.init mem bs).run cuts
    let grammar := protMarks.linesWithin PROT_MAX_BUFFER_LENGTH [] bs
    (∃ R, R ++ f.input = bs ∧ f.records = reports (protMarks.lines R) ∧
      (f.status = -EMSGSIZE ∧ (protMarks.rest R).length = PROT_MAX_BUFFER_LENGTH ∨
        f.status = -EAGAIN ∧ (protMarks.rest R).length < PROT_MAX_BUFFER_LENGTH)) ∧
    (f.input = [] ∨ f.status = -EMSGSIZE →
      f.records = reports grammar.1 ∧ (f.status = -EMSGSIZE ↔ grammar.2 = true)) ∧
    Handled mem f.prot ∧
    ∀ p, Handled mem p → p.fields.count < 0 →
      (bufScanEndRecord p.inbuf).1 = true →
      ∀ a ∈ (bufDecode (bufScanEndRecord p.inbuf).2 p.fields).accesses,
        a.Within (bufScanEndRecord p.inbuf).2.pos := by
  intro f grammar
  obtain ⟨R, h⟩ := (Feed.inv_init mem bs).run cuts
  have hcode := h.pending.waitCode
  rw [← h.status] at hcode
  refine ⟨⟨R, h.stream, h.records, hcode⟩, fun hend => ?_, Handled.run .reset cuts,
    fun p hp => hp.accesses⟩
  have hg : grammar = _ := h.grammar_eq hend
  rw [hg]
  exact ⟨h.records, (decide_eq_true_iff).symm⟩

/-- A stream of an empty line, a record with an escape and a record cut in the middle. -/
theorem stream_parsing_cut :
    ((Feed.init ⟨fun _ => 1, fun _ => 1, fun _ => 0⟩ (CStr.lit "\nid a\\ b\nclear").bytes).run
      [3, 1, 30]).records = [[.lit "id", .lit "a b"]] ∧
    ∀ a ∈ (bufDecode (bufScanEndRecord (protRead (protReset ⟨fun _ => 1, fun _ => 1, fun _ => 0⟩)
        (.data [97, 10])).2.inbuf).2 ⟨-1, fun _ => 0⟩).accesses, a.Within 1 :=
  ⟨((stream_parsing ⟨fun _ => 1, fun _ => 1, fun _ => 0⟩ (CStr.lit "\nid a\\ b\nclear").bytes
      [3, 1, 30]).2.1 (.inl (by decide +kernel))).1.trans (by decide +kernel),
    (stream_parsing ⟨fun _ => 1, fun _ => 1, fun _ => 0⟩ [] []).2.2.2 _
      (.read (.data [97, 10]) .reset) (by decide) (by decide +kernel)⟩

end SecLsmManager
