import SecLsmManager.Protocol.Output
import SecLsmManager.Protocol.Receiver

/-!
# Transport of records between two handlers

A sending and a receiving handler joined by a FIFO channel of bytes, as a machine whose
operations come in any order. The invariant `Link.Inv` says that the bytes the receiver was
given, the bytes in the channel and the committed bytes of the sender are together the encoding
of the records sent.
-/

namespace SecLsmManager

open Lib

/-- A record that the protocol can carry: of 1 to `PROT_MAX_FIELDS` fields, and not the single
empty field, whose line is empty. -/
structure Record where
  fields : List CStr
  ne_nil : fields ≠ []
  le_max : fields.length ≤ PROT_MAX_FIELDS
  ne_empty : fields ≠ [CStr.empty]

/-- Two handlers and the channel from the one to the other. -/
structure Link where
  sender : Prot
  receiver : Prot
  channel : List UInt8
  /-- the record that `prot_get` returned, until `prot_next` releases it -/
  current : Option (List CStr)
  /-- the records whose `prot_put` returned 0 -/
  sent : List Record
  /-- the records returned by `prot_get` and then released by `prot_next` -/
  delivered : List (List CStr)
  /-- the codes that `prot_get` returned -/
  codes : List Int

/-- The operations. A write or a read of `n + 1` bytes moves as many of them as there are. -/
inductive LinkOp
  | put (r : Record)
  | write (n : Nat)
  | read (n : Nat)
  | get
  | next

def Link.step (l : Link) : LinkOp → Link
  | .put r =>
    let (rc, sender) := protPut l.sender r.fields
    { l with sender, sent := if rc = 0 then l.sent ++ [r] else l.sent }
  | .write n =>
    let (_, sender, bytes) := protWrite l.sender (.written (n + 1))
    { l with sender, channel := l.channel ++ bytes }
  | .read n =>
    let (rc, receiver) := protRead l.receiver (.data (l.channel.take (n + 1)))
    { l with receiver, channel := l.channel.drop rc.toNat }
  | .get =>
    let (rc, receiver) := protGet l.receiver
    { l with
      receiver
      current := if rc ≥ 0 then some (protArgs receiver) else none
      codes := l.codes ++ [rc] }
  | .next =>
    match l.current with
    | none => l
    | some r =>
      { l with receiver := protNext l.receiver, current := none, delivered := l.delivered ++ [r] }

/-- Two handlers after `prot_create`, with an empty channel. -/
def Link.init (sender receiver : ProtMem) : Link :=
  { sender := protReset sender
    receiver := protReset receiver
    channel := [], current := none, sent := [], delivered := [], codes := [] }

def Link.run (l : Link) (ops : List LinkOp) : Link := ops.foldl Link.step l

/-- `k` rounds of `prot_get` and `prot_next`. -/
def Link.drain (l : Link) (k : Nat) : Link :=
  l.run (List.replicate k [LinkOp.get, LinkOp.next]).flatten

/-! ## The invariant -/

/-- The text of the records sent. -/
def wire (rs : List Record) : List UInt8 :=
  protMarks.stream (rs.map fun r => r.fields.map CStr.bytes)

/-- The text of one more record comes behind the text so far. -/
theorem wire_append (rs : List Record) (r : Record) :
    wire (rs ++ [r]) = wire rs ++ encode r.fields := by
  simp [wire, Marks.stream, encode]

/-- The text of a record is not empty, so it is never skipped as an empty line. -/
theorem Record.text_ne_nil (r : Record) :
    protMarks.encodeFields (r.fields.map CStr.bytes) ≠ [] := by
  intro h
  have hne : r.fields.map CStr.bytes ≠ [] := by simpa using r.ne_nil
  have hdec := protMarks.decodeFields_encodeFields hne
  rw [h, Marks.decodeFields] at hdec
  obtain ⟨f, hf, hb⟩ := List.map_eq_singleton_iff.1 hdec.symm
  have he : f = CStr.empty := CStr.ext hb
  exact r.ne_empty (by rw [hf, he])

/-- A record's text is reported as its fields. -/
theorem Record.report (r : Record) :
    SecLsmManager.report (protMarks.encodeFields (r.fields.map CStr.bytes)) = r.fields := by
  have hne : r.fields.map CStr.bytes ≠ [] := by simpa using r.ne_nil
  have hdec := protMarks.decodeFields_encodeFields hne
  rw [SecLsmManager.report, reported, if_neg r.text_ne_nil, hdec,
    List.take_of_length_le (by simpa using r.le_max), List.map_map]
  exact (List.map_congr_left fun s _ => CStr.ofBytes_bytes s).trans (List.map_id _)

/-- **Round trip of the records sent.** The reports of their text are the records. -/
theorem reports_wire (rs : List Record) :
    reports (protMarks.lines (wire rs)) = rs.map Record.fields := by
  rw [wire, protMarks.lines_stream, reports, List.filter_eq_self.2, List.map_map, List.map_map]
  · exact List.map_congr_left fun r _ => r.report
  · intro line hl
    simp only [List.map_map, List.mem_map, Function.comp] at hl
    obtain ⟨r, -, rfl⟩ := hl
    simpa using r.text_ne_nil

/-- A receiver and the record that `prot_get` returned from it. -/
inductive Reading (p : Prot) (current : Option (List CStr)) (R : List UInt8)
    (out : List (List CStr)) : Prop
  | waiting {b : List UInt8} : current = none → Pending p b → Received R out b →
      Reading p current R out
  | holding {line b : List UInt8} : current = some (report line) → Holding p line b →
      line ≠ [] → protMarks.Body line → Received R out (line ++ PROT_RECORD_SEPARATOR :: b) →
      Reading p current R out

/-- What the link knows of its receiver is more than what the decoder keeps. -/
theorem Reading.receiver {p : Prot} {current : Option (List CStr)} {R : List UInt8}
    {out : List (List CStr)} (h : Reading p current R out) : Receiver p R out := by
  cases h with
  | waiting _ h hr => exact .waiting h hr
  | holding _ h hl hb hr => exact .holding h hl hb hr

/-- In both states the delivered records are those of the bytes received. -/
theorem Reading.received {p : Prot} {current : Option (List CStr)} {R : List UInt8}
    {out : List (List CStr)} (h : Reading p current R out) : ∃ tail, Received R out tail := by
  cases h with
  | waiting _ _ hr => exact ⟨_, hr⟩
  | holding _ _ _ _ hr => exact ⟨_, hr⟩

/-- What the link keeps: `R` is the bytes given to the receiver and `q` the committed bytes of
the sender. -/
structure Link.Inv (l : Link) (R q : List UInt8) : Prop where
  sender : OutIdle l.sender q
  stream : R ++ (l.channel ++ q) = wire l.sent
  short : ∀ r ∈ l.sent, (encode r.fields).length ≤ PROT_MAX_BUFFER_LENGTH
  receiver : Reading l.receiver l.current R l.delivered
  no_empty : l.receiver.allowEmpty = false
  codes : ∀ rc ∈ l.codes, rc ≠ -EMSGSIZE

/-- The invariant holds after `prot_create`. -/
theorem Link.inv_init (s r : ProtMem) :
    (Link.init s r).Inv [] [] where
  sender := outIdle_protReset s
  stream := rfl
  short := fun _ h => absurd h List.not_mem_nil
  receiver := .waiting rfl (pending_protReset _) .nil
  no_empty := rfl
  codes := fun _ h => absurd h List.not_mem_nil

/-- What follows the last record in the bytes given to the receiver does not fill its buffer. -/
theorem Link.Inv.rest_lt {l : Link} {R q : List UInt8} (h : l.Inv R q) :
    (protMarks.rest R).length < PROT_MAX_BUFFER_LENGTH := by
  refine protMarks.rest_length_of_isPrefix _ (l.sent.map fun r => r.fields.map CStr.bytes) R
    (by decide) ?_ ⟨_, h.stream⟩
  simp only [List.mem_map]
  rintro _ ⟨r, hr, rfl⟩
  exact h.short r hr

/-- A record is committed whole, or refused and nothing of it is left. -/
theorem Link.Inv.put {l : Link} {R q : List UInt8} (h : l.Inv R q) (r : Record) :
    ∃ q', (l.step (.put r)).Inv R q' := by
  rcases protPut_spec h.sender r.ne_nil with ⟨h1, p', h2, h3, -⟩ | ⟨-, p', h2, h3, -⟩
  · refine ⟨q ++ encode r.fields, ?_⟩
    simp only [Link.step, h2, if_true]
    refine { h with sender := h3, stream := ?_, short := ?_ }
    · rw [wire_append, ← h.stream]
      simp
    · intro r' hr'
      rcases List.mem_append.1 hr' with hr' | hr'
      · exact h.short r' hr'
      · rw [List.mem_singleton.1 hr']
        omega
  · refine ⟨q, ?_⟩
    have hne : ¬ (-ECANCELED = 0) := by decide
    simp only [Link.step, h2, if_neg hne]
    exact { h with sender := h3 }

/-- Bytes go from the sender to the channel, and their order stays. -/
theorem Link.Inv.write {l : Link} {R q : List UInt8} (h : l.Inv R q) (n : Nat) :
    ∃ q', (l.step (.write n)).Inv R q' := by
  by_cases hq : q = []
  · subst hq
    refine ⟨[], ?_⟩
    simp only [Link.step, protWrite_nodata h.sender.toOutState]
    exact { h with stream := by simpa using h.stream }
  · obtain ⟨p', h1, h2, h3, h4⟩ := protWrite_spec h.sender.toOutState (n + 1) hq
    refine ⟨q.drop (n + 1), ?_⟩
    simp only [Link.step, h1]
    refine { h with
      sender := { h2 with
        no_fields := h4.trans h.sender.no_fields
        no_empty := h3.2.2.trans h.sender.no_empty }
      stream := ?_ }
    rw [List.append_assoc l.channel, List.take_append_drop]
    exact h.stream

/-- What is read and what is left in the channel are what was there. -/
theorem readable_append_drop (p : Prot) (l : List UInt8) (n : Nat) :
    readable p (l.take n) ++ l.drop (readable p (l.take n)).length = l := by
  obtain ⟨c, hc⟩ : readable p (l.take n) <+: l :=
    (List.take_prefix _ _).trans (List.take_prefix _ _)
  generalize readable p (l.take n) = x at hc
  rw [← hc, List.drop_left]

/-- Bytes go from the channel to the receiver: as many as its buffer takes. -/
theorem Link.Inv.read {l : Link} {R q : List UInt8} (h : l.Inv R q) (n : Nat) :
    ∃ R', (l.step (.read n)).Inv R' q := by
  have hr : ∀ bytes, Reading (protRead l.receiver (.data bytes)).2 l.current
      (R ++ if l.receiver.inbuf.count = PROT_MAX_BUFFER_LENGTH then [] else
        readable l.receiver bytes) l.delivered := by
    intro bytes
    cases h.receiver with
    | waiting hc hp hr => exact .waiting hc (hp.read bytes) (hr.append _)
    | holding hc hp hl hb hr =>
      refine .holding hc (hp.read bytes) hl hb ?_
      simpa using hr.append (if l.receiver.inbuf.count = PROT_MAX_BUFFER_LENGTH then [] else
        readable l.receiver bytes)
  refine ⟨_, { h with stream := ?_, receiver := hr (l.channel.take (n + 1)), no_empty := ?_ }⟩
  · simp only [Link.step, protRead_data]
    rw [← h.stream]
    split
    · have h0 : (-ENOBUFS).toNat = 0 := by decide
      simp [h0]
    · rw [List.append_assoc, Int.toNat_natCast, ← List.append_assoc (readable _ _),
        readable_append_drop]
  · exact (protRead_sameOutput l.receiver (.data (l.channel.take (n + 1)))).2.2.2.trans h.no_empty

/-- `prot_get` gives a record, or waits for more: the buffer is never full of one record, as none
that was sent is that long. -/
theorem Link.Inv.get {l : Link} {R q : List UInt8} (h : l.Inv R q) :
    (l.step .get).Inv R q := by
  obtain ⟨hg, hs⟩ := h.receiver.receiver.get h.no_empty
  have hcodes : ∀ {rc}, rc ≠ -EMSGSIZE → ∀ c ∈ l.codes ++ [rc], c ≠ -EMSGSIZE := by
    intro rc hrc c hc
    rcases List.mem_append.1 hc with hc | hc
    · exact h.codes c hc
    · rwa [List.mem_singleton.1 hc]
  have hstep : l.step .get =
      { l with
        receiver := (protGet l.receiver).2
        current :=
          if (protGet l.receiver).1 ≥ 0 then some (protArgs (protGet l.receiver).2) else none
        codes := l.codes ++ [(protGet l.receiver).1] } := rfl
  rw [hstep]
  generalize protGet l.receiver = answer at hg hs
  obtain ⟨rc, p'⟩ := answer
  simp only at hg hs ⊢
  cases hg with
  | @record line b hrc hp hl hb hr =>
    have hge : rc ≥ 0 := by rw [hrc]; exact Int.natCast_nonneg _
    refine { h with
      receiver := Reading.holding ?_ hp hl hb hr
      no_empty := hs.2.2.2.trans h.no_empty, codes := hcodes fun hc => ?_ }
    · simp only [if_pos hge, hp.args]
    · rw [hc] at hge
      exact absurd hge (by decide)
  | @none b hrc hp hb hr =>
    have hlt : ¬ rc ≥ 0 := by rw [hrc]; exact Int.not_le.2 (waitCode_neg b)
    have htail := (hr.noEnd hb).2
    refine { h with
      receiver := .waiting (b := b) (if_neg hlt) hp hr
      no_empty := hs.2.2.2.trans h.no_empty, codes := hcodes ?_ }
    rw [hrc, waitCode, if_pos (by rw [htail]; exact h.rest_lt)]
    decide

/-- `prot_next` delivers the record that is held. -/
theorem Link.Inv.next {l : Link} {R q : List UInt8} (h : l.Inv R q) :
    (l.step .next).Inv R q := by
  cases h.receiver with
  | waiting hc hp hr =>
    simp only [Link.step, hc]
    exact h
  | @holding line b hc hp hl hb hr =>
    obtain ⟨h1, h2⟩ := hp.next
    simp only [Link.step, hc]
    have hr' := hr.line hb
    rw [show reports [line] = [report line] by simp [reports, hl]] at hr'
    exact { h with
      receiver := .waiting rfl h1 hr'
      no_empty := h2.2.2.2.trans h.no_empty }

/-- Each operation keeps the invariant. -/
theorem Link.Inv.step {l : Link} {R q : List UInt8} (h : l.Inv R q) (op : LinkOp) :
    ∃ R' q', (l.step op).Inv R' q' := by
  cases op with
  | put r => exact ⟨R, h.put r⟩
  | write n => exact ⟨R, h.write n⟩
  | read n =>
    obtain ⟨R', h'⟩ := h.read n
    exact ⟨R', q, h'⟩
  | get => exact ⟨R, q, h.get⟩
  | next => exact ⟨R, q, h.next⟩

/-- The invariant holds after any sequence of operations. -/
theorem Link.Inv.run {l : Link} {R q : List UInt8} (h : l.Inv R q) (ops : List LinkOp) :
    ∃ R' q', (l.run ops).Inv R' q' := by
  induction ops generalizing l R q with
  | nil => exact ⟨R, q, h⟩
  | cons op ops ih =>
    obtain ⟨R', q', h'⟩ := h.step op
    exact ih h'

/-- What was delivered is a prefix of what was sent. -/
theorem Link.Inv.delivered_isPrefix {l : Link} {R q : List UInt8} (h : l.Inv R q) :
    l.delivered <+: l.sent.map Record.fields := by
  obtain ⟨tail, hr⟩ := h.receiver.received
  rw [← reports_wire, ← h.stream]
  exact hr.out_isPrefix.trans (reports_mono (protMarks.lines_mono (List.prefix_append _ _)))

/-! ## Draining -/

/-- What `prot_get` makes of the current record. -/
theorem Link.step_get_current (l : Link) :
    (l.step .get).current =
      if (protGet l.receiver).1 ≥ 0 then some (protArgs (protGet l.receiver).2) else none := rfl

/-- `prot_next` delivers the current record, if there is one. -/
theorem Link.step_next_delivered (l : Link) :
    (l.step .next).delivered = l.delivered ++ l.current.toList := by
  cases hc : l.current <;> simp [Link.step, hc]

/-- It does not touch what was sent. -/
theorem Link.step_next_sent (l : Link) : (l.step .next).sent = l.sent := by
  cases hc : l.current <;> simp [Link.step, hc]

/-- A round of `prot_get` and `prot_next` delivers one more record, or every complete record was
delivered before. -/
theorem Link.Inv.round {l : Link} {R q : List UInt8} (h : l.Inv R q) :
    ((l.step .get).step .next).delivered.length = l.delivered.length + 1 ∨
      ((l.step .get).step .next).delivered = reports (protMarks.lines R) := by
  have hd : (l.step .get).delivered = l.delivered := rfl
  rw [Link.step_next_delivered, Link.step_get_current, hd]
  obtain ⟨hg, -⟩ := h.receiver.receiver.get h.no_empty
  generalize protGet l.receiver = answer at hg
  cases hg with
  | record hrc _ _ _ _ =>
    left
    have hge : answer.1 ≥ 0 := by rw [hrc]; exact Int.natCast_nonneg _
    simp only [if_pos hge, List.length_append, Option.toList_some, List.length_singleton]
  | @none b hrc _ hb hr =>
    right
    have hlt : ¬ answer.1 ≥ 0 := by rw [hrc]; exact Int.not_le.2 (waitCode_neg b)
    simp only [if_neg hlt, Option.toList_none, List.append_nil]
    exact (hr.noEnd hb).1

/-- A drain is one round and the others. -/
theorem Link.drain_succ (l : Link) (k : Nat) :
    l.drain (k + 1) = ((l.step .get).step .next).drain k := by
  simp [Link.drain, Link.run, List.replicate_succ]

/-- Once every byte is given to the receiver, enough rounds deliver every record. -/
theorem Link.Inv.drain {l : Link} (h : l.Inv (wire l.sent) []) (k : Nat)
    (hk : l.sent.length ≤ l.delivered.length + k) :
    (l.drain k).delivered = l.sent.map Record.fields := by
  induction k generalizing l with
  | zero => exact h.delivered_isPrefix.eq_of_length_le (by simpa using hk)
  | succ k ih =>
    have hs : ((l.step .get).step .next).sent = l.sent := Link.step_next_sent _
    have h' := h.get.next
    rw [← hs] at h'
    rw [Link.drain_succ, ← hs]
    refine ih h' ?_
    rw [hs]
    rcases h.round with hr | hr
    · omega
    · rw [hr, reports_wire, List.length_map]
      exact Nat.le_add_right _ _

/-- **Transport of records.** Whatever the order of the operations, the records delivered are a
prefix of the records sent, `prot_get` never gives `-EMSGSIZE`, and when no byte is left in the
sender and in the channel, rounds of `prot_get` and `prot_next` deliver every record. -/
theorem link_transport (s r : ProtMem) (ops : List LinkOp) :
    let l := (Link.init s r).run ops
    l.delivered <+: l.sent.map Record.fields ∧
      (∀ rc ∈ l.codes, rc ≠ -EMSGSIZE) ∧
      (l.sender.wrokcnt = 0 → l.channel = [] →
        ∀ k, l.sent.length ≤ l.delivered.length + k →
          (l.drain k).delivered = l.sent.map Record.fields) := by
  obtain ⟨R, q, h⟩ := (Link.inv_init s r).run ops
  refine ⟨h.delivered_isPrefix, h.codes, fun hw hc k hk => ?_⟩
  obtain rfl : q = [] := List.length_eq_zero_iff.1 (h.sender.committed.symm.trans hw)
  have hR : R = wire ((Link.init s r).run ops).sent := by
    have := h.stream
    rwa [hc, List.append_nil, List.append_nil] at this
  rw [hR] at h
  exact h.drain k hk

/-- A record of two fields, one of them with a character to escape. -/
def idRecord : Record where
  fields := [.lit "id", .lit "a b"]
  ne_nil := by decide
  le_max := by decide
  ne_empty := by decide

/-- A record that is sent, carried in two pieces and read. -/
theorem link_transport_id :
    ((((Link.init ⟨fun _ => 0, fun _ => 0, fun _ => 0⟩ ⟨fun _ => 7, fun _ => 7, fun _ => 7⟩).run
      [.put idRecord, .write 3, .read 9, .get, .write 9, .read 9]).drain 1).delivered
        = [idRecord.fields]) :=
  (link_transport ⟨fun _ => 0, fun _ => 0, fun _ => 0⟩ ⟨fun _ => 7, fun _ => 7, fun _ => 7⟩
    [.put idRecord, .write 3, .read 9, .get, .write 9, .read 9]).2.2 (by decide +kernel)
      (by decide +kernel) 1 (by decide +kernel)

end SecLsmManager
