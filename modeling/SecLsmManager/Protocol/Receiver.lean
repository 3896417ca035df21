import SecLsmManager.Protocol.Input

/-!
# The receiver of a stream

The input side of the handler against the whole stream of bytes it was given. `Received R out
tail` says that the stream `R` is made of complete records, whose reports are `out`, and of the
bytes `tail`; `Pending` and `Holding` say what the handler's buffer has to do with `tail`. The
specification of `prot_get` (`protGet_spec`) is then that it walks `tail` record by record,
wherever the reads were cut.
-/

namespace SecLsmManager

open Lib

/-- The parts of a handler that its input side leaves alone. -/
def SameOutput (p p' : Prot) : Prop :=
  p'.outbuf = p.outbuf ∧ p'.outfields = p.outfields ∧ p'.wrokcnt = p.wrokcnt ∧
    p'.allowEmpty = p.allowEmpty

/-- The output is the one that it is. -/
theorem SameOutput.refl (p : Prot) : SameOutput p p := ⟨rfl, rfl, rfl, rfl⟩

/-- It is the same over two steps. -/
theorem SameOutput.trans {p p' p'' : Prot} (h : SameOutput p p') (h' : SameOutput p' p'') :
    SameOutput p p'' :=
  ⟨h'.1.trans h.1, h'.2.1.trans h.2.1, h'.2.2.1.trans h.2.2.1, h'.2.2.2.trans h.2.2.2⟩

/-! ## The states of the input side -/

/-- The handler waits for a record: `b` is buffered and scanned up to `pos` for its end. -/
structure Pending (p : Prot) (b : List UInt8) : Prop where
  waiting : p.fields.count < 0
  count_le : p.inbuf.count ≤ PROT_MAX_BUFFER_LENGTH
  pos_le : p.inbuf.pos ≤ p.inbuf.count
  bytes : cells p.inbuf.content 0 p.inbuf.count = b
  scanned : protMarks.NoEnd (cells p.inbuf.content 0 p.inbuf.pos)

/-- The handler holds the decoded record of text `line`; `b` is buffered after it. -/
structure Holding (p : Prot) (line b : List UInt8) : Prop where
  count : p.fields.count = (reported line).length
  count_le : p.inbuf.count ≤ PROT_MAX_BUFFER_LENGTH
  pos_le : p.inbuf.pos ≤ p.inbuf.count
  bytes : cells p.inbuf.content p.inbuf.pos (p.inbuf.count - p.inbuf.pos) = b
  fields : ∀ i (h : i < (reported line).length),
    Holds p.inbuf.content (p.fields.fields i) (reported line)[i] p.inbuf.pos

/-- As many bytes wait as the buffer counts. -/
theorem Pending.length {p : Prot} {b : List UInt8} (h : Pending p b) :
    b.length = p.inbuf.count := by
  rw [← h.bytes, cells_length]

/-- The fields a handler gives are the report of the record it holds. -/
theorem Holding.args {p : Prot} {line b : List UInt8} (h : Holding p line b) :
    protArgs p = report line := by
  have hc := h.count
  apply List.ext_getElem
  · simp [protArgs, report, hc]
  · intro i h1 h2
    have hi : i < (reported line).length := by simpa [report] using h2
    simp only [protArgs, report, List.getElem_map, List.getElem_range]
    refine (h.fields i hi).ofBytes ?_
    have := (h.fields i hi).below
    have := h.count_le
    have := h.pos_le
    omega

/-- A line that is not empty has a field. -/
theorem reported_length_pos {line : List UInt8} (h : line ≠ []) : 0 < (reported line).length := by
  rw [reported, if_neg h, List.length_take]
  have := List.length_pos_of_ne_nil (protMarks.decodeFields_ne_nil line)
  have : 0 < PROT_MAX_FIELDS := by decide
  omega

/-- `prot_reset` leaves a handler that waits, with nothing buffered. -/
theorem pending_protReset (mem : ProtMem) : Pending (protReset mem) [] :=
  ⟨(by decide : (-1 : Int) < 0), Nat.zero_le _, Nat.le_refl _, rfl, protMarks.noEnd_nil⟩

/-! ## Reading -/

/-- The bytes that a read finds room for. -/
def readable (p : Prot) (bytes : List UInt8) : List UInt8 :=
  bytes.take (PROT_MAX_BUFFER_LENGTH - p.inbuf.count)

/-- The result of a read of data: the count of bytes that found room, or `-ENOBUFS`. -/
theorem protRead_data (p : Prot) (bytes : List UInt8) :
    protRead p (.data bytes) =
      if p.inbuf.count = PROT_MAX_BUFFER_LENGTH then (-ENOBUFS, p)
      else ((readable p bytes).length, { p with inbuf := { p.inbuf with
        count := p.inbuf.count + (readable p bytes).length
        content := writeCells p.inbuf.content p.inbuf.count (readable p bytes) } }) := by
  by_cases h : p.inbuf.count = PROT_MAX_BUFFER_LENGTH
  · simp only [protRead, inbufRead, if_pos h]
  · simp only [protRead, inbufRead, if_neg h, readable]

/-- What is written behind the bytes that wait, waits behind them. -/
theorem cells_extend (m : Nat → UInt8) {i n : Nat} (hi : i ≤ n) (l : List UInt8) :
    cells (writeCells m n l) i (n + l.length - i) = cells m i (n - i) ++ l := by
  obtain ⟨k, rfl⟩ := Nat.exists_eq_add_of_le hi
  rw [show i + k + l.length - i = k + l.length by omega, Nat.add_sub_cancel_left, cells_append,
    cells_writeCells]
  congr 1
  exact cells_congr fun j _ hj => writeCells_of_lt m l hj

/-- A read appends to what is buffered, and leaves a held record alone. -/
theorem Pending.read {p : Prot} {b : List UInt8} (h : Pending p b) (bytes : List UInt8) :
    Pending (protRead p (.data bytes)).2
      (b ++ if p.inbuf.count = PROT_MAX_BUFFER_LENGTH then [] else readable p bytes) := by
  rw [protRead_data]
  split
  · simpa using h
  · have hc := h.count_le
    have hlen : (readable p bytes).length ≤ PROT_MAX_BUFFER_LENGTH - p.inbuf.count :=
      List.length_take_le _ _
    refine ⟨h.waiting, ?_, Nat.le_add_right_of_le h.pos_le, ?_, ?_⟩
    · simp only; omega
    · have := cells_extend p.inbuf.content (Nat.zero_le p.inbuf.count) (readable p bytes)
      rwa [Nat.sub_zero, Nat.sub_zero, h.bytes] at this
    · have hpos := h.pos_le
      have hs : cells (writeCells p.inbuf.content p.inbuf.count (readable p bytes)) 0 p.inbuf.pos =
          cells p.inbuf.content 0 p.inbuf.pos :=
        cells_congr fun j _ hj => writeCells_of_lt _ _ (by omega)
      exact hs ▸ h.scanned

/-- A read behind a record that is held adds what fits in the buffer. -/
theorem Holding.read {p : Prot} {line b : List UInt8} (h : Holding p line b)
    (bytes : List UInt8) :
    Holding (protRead p (.data bytes)).2 line
      (b ++ if p.inbuf.count = PROT_MAX_BUFFER_LENGTH then [] else readable p bytes) := by
  rw [protRead_data]
  split
  · simpa using h
  · have hc := h.count_le
    have hpos := h.pos_le
    have hlen : (readable p bytes).length ≤ PROT_MAX_BUFFER_LENGTH - p.inbuf.count :=
      List.length_take_le _ _
    refine ⟨h.count, ?_, Nat.le_add_right_of_le h.pos_le, ?_, fun i hi => ?_⟩
    · simp only; omega
    · rw [← h.bytes]
      exact cells_extend p.inbuf.content h.pos_le (readable p bytes)
    · exact (h.fields i hi).congr (fun j hj => writeCells_of_lt _ _ (by omega)) (Nat.le_refl _)

/-- A read of at most `n + 1` bytes of an input: `x` is what is read. -/
theorem Pending.readInput {p : Prot} {b : List UInt8} (h : Pending p b) (input : List UInt8)
    (n : Nat) :
    ∃ x, x ++ input.drop (protRead p (.data (input.take (n + 1)))).1.toNat = input ∧
      Pending (protRead p (.data (input.take (n + 1)))).2 (b ++ x) ∧
      b.length + x.length ≤ PROT_MAX_BUFFER_LENGTH ∧
      (b.length < PROT_MAX_BUFFER_LENGTH →
        (protRead p (.data (input.take (n + 1)))).1 = x.length ∧ (x = [] → input = [])) := by
  have hp := h.read (input.take (n + 1))
  have hlen := h.length
  have hle := h.count_le
  rw [protRead_data] at hp ⊢
  split at hp
  · rename_i hfull
    rw [if_pos hfull]
    have h0 : (-ENOBUFS).toNat = 0 := by decide
    exact ⟨[], by simp [h0], hp, by simp only [List.length_nil]; omega, fun hlt => by omega⟩
  · rename_i hroom
    rw [if_neg hroom]
    have hx : (readable p (input.take (n + 1))).length ≤
        PROT_MAX_BUFFER_LENGTH - p.inbuf.count := List.length_take_le _ _
    obtain ⟨rest, hrest⟩ : readable p (input.take (n + 1)) <+: input :=
      (List.take_prefix _ _).trans (List.take_prefix _ _)
    refine ⟨_, ?_, hp, by omega, fun _ => ⟨rfl, fun hnil => ?_⟩⟩
    · generalize readable p (input.take (n + 1)) = x at hrest
      rw [← hrest]
      simp
    · have hz := congrArg List.length hnil
      simp only [readable, List.length_take, List.length_nil] at hz
      exact List.eq_nil_of_length_eq_zero (by omega)

/-- A read that fails changes nothing. -/
theorem protRead_error (p : Prot) (e : Errno) : (protRead p (.error e)).2 = p := by
  simp only [protRead, inbufRead]
  split <;> rfl

/-- A read leaves the output alone. -/
theorem protRead_sameOutput (p : Prot) (answer : ReadAnswer) :
    SameOutput p (protRead p answer).2 := ⟨rfl, rfl, rfl, rfl⟩

/-! ## Releasing and obtaining records -/

/-- `prot_next` forgets the record that is held. -/
theorem Holding.next {p : Prot} {line b : List UInt8} (h : Holding p line b) :
    Pending (protNext p) b ∧ SameOutput p (protNext p) := by
  have hge : p.fields.count ≥ 0 := by
    rw [h.count]
    exact Int.natCast_nonneg _
  have hc := h.count_le
  rw [protNext, if_pos hge]
  refine ⟨⟨(by decide : (-1 : Int) < 0), ?_, Nat.zero_le _, ?_, protMarks.noEnd_nil⟩,
    ⟨rfl, rfl, rfl, rfl⟩⟩
  · simp only [bufCrop]; omega
  · simp only [bufCrop]
    have := cells_writeCells p.inbuf.content 0
      (cells p.inbuf.content p.inbuf.pos (p.inbuf.count - p.inbuf.pos))
    rw [cells_length] at this
    rw [this, h.bytes]

/-- Without a record `prot_next` does nothing. -/
theorem Pending.next {p : Prot} {b : List UInt8} (h : Pending p b) : protNext p = p :=
  if_neg (Int.not_le.2 h.waiting)

/-- The code of `prot_get` when `b` is buffered and no record ends in it. -/
def waitCode (b : List UInt8) : Int :=
  if b.length < PROT_MAX_BUFFER_LENGTH then -EAGAIN else -EMSGSIZE

/-- The scan stops at the first end of record, or at the end of the bytes. -/
theorem Pending.scan {p : Prot} {b : List UInt8} (h : Pending p b) :
    ∃ pos, protMarks.NoEnd (cells p.inbuf.content 0 pos) ∧
      ((pos < p.inbuf.count ∧ p.inbuf.content pos = PROT_RECORD_SEPARATOR ∧
          protMarks.Body (cells p.inbuf.content 0 pos) ∧
          bufScanEndRecord p.inbuf = (true, { p.inbuf with pos })) ∨
        (pos = p.inbuf.count ∧ bufScanEndRecord p.inbuf = (false, { p.inbuf with pos }))) := by
  have hpos := h.pos_le
  obtain ⟨found, pos, h1, h2, h3, h4⟩ :=
    scanLoop_spec p.inbuf.content (p.inbuf.count - p.inbuf.pos) p.inbuf.pos h.scanned
  refine ⟨pos, h3, ?_⟩
  unfold bufScanEndRecord
  rw [h1]
  rcases h4 with ⟨rfl, h5, h6, h7⟩ | ⟨rfl, h5⟩
  · exact .inl ⟨by omega, h6, h7, rfl⟩
  · exact .inr ⟨by omega, rfl⟩

/-- **The first half of a turn of `prot_get`.** It decodes the first record that ends in what is
buffered, or finds none. -/
theorem protDecode_spec {p : Prot} {b : List UInt8} (h : Pending p b) :
    ∃ p', SameOutput p p' ∧
      ((∃ line b', b = line ++ PROT_RECORD_SEPARATOR :: b' ∧ protMarks.Body line ∧
          protDecode p = (0, p') ∧ Holding p' line b') ∨
        (protMarks.NoEnd b ∧ protDecode p = (waitCode b, p') ∧ Pending p' b)) := by
  have hc := h.count_le
  have hb := h.bytes
  obtain ⟨pos, hno, ⟨h5, h6, h7, h8⟩ | ⟨rfl, h8⟩⟩ := h.scan
  · have hd := bufDecode_spec { p.inbuf with pos } p.fields h7 h6 (Nat.lt_of_lt_of_le h5 hc)
    have hsplit : b = cells p.inbuf.content 0 pos ++ PROT_RECORD_SEPARATOR ::
        cells p.inbuf.content (pos + 1) (p.inbuf.count - (pos + 1)) := by
      rw [← h6, ← cells_succ, ← hb]
      have := cells_append p.inbuf.content 0 pos (p.inbuf.count - (pos + 1) + 1)
      rw [Nat.zero_add, show pos + (p.inbuf.count - (pos + 1) + 1) = p.inbuf.count by omega] at this
      exact this
    refine ⟨{ p with
        inbuf := (bufGetFields { p.inbuf with pos } p.fields).1
        fields := (bufGetFields { p.inbuf with pos } p.fields).2 },
      ⟨rfl, rfl, rfl, rfl⟩, .inl ⟨_, _, hsplit, h7, ?_, ?_⟩⟩
    · simp only [protDecode, if_pos h.waiting, h8, if_true]
    · refine ⟨?_, hc, h5, ?_, fun i hi => hd.fields i hi⟩
      · simp only [bufGetFields]
        rw [hd.count]
      · exact cells_congr fun j hj _ => hd.unread j hj
  · refine ⟨{ p with inbuf := { p.inbuf with pos := p.inbuf.count } }, ⟨rfl, rfl, rfl, rfl⟩,
      .inr ⟨by rwa [← hb], ?_, ⟨h.waiting, hc, Nat.le_refl _, hb, hno⟩⟩⟩
    simp only [protDecode, if_pos h.waiting, h8, Bool.false_eq_true, if_false, protCanRead,
      waitCode, h.length, decide_eq_true_eq]

/-- The code of a wait tells whether the rest fills the buffer. -/
theorem Pending.waitCode {p : Prot} {b : List UInt8} (h : Pending p b) :
    waitCode b = -EMSGSIZE ∧ b.length = PROT_MAX_BUFFER_LENGTH ∨
      waitCode b = -EAGAIN ∧ b.length < PROT_MAX_BUFFER_LENGTH := by
  have h1 := h.length
  have h2 := h.count_le
  by_cases hlt : b.length < PROT_MAX_BUFFER_LENGTH
  · exact .inr ⟨if_pos hlt, hlt⟩
  · exact .inl ⟨if_neg hlt, by omega⟩

/-- The codes for waiting are negative. -/
theorem waitCode_neg (b : List UInt8) : waitCode b < 0 := by
  unfold waitCode
  split <;> decide

/-- The accesses of the decoder stay in the record and behind what is not read yet. -/
theorem Pending.accesses {p : Prot} {b : List UInt8} (h : Pending p b)
    (hf : (bufScanEndRecord p.inbuf).1 = true) :
    ∀ a ∈ (bufDecode (bufScanEndRecord p.inbuf).2 p.fields).accesses,
      a.Within (bufScanEndRecord p.inbuf).2.pos := by
  obtain ⟨pos, hno, ⟨h5, h6, h7, h8⟩ | ⟨rfl, h8⟩⟩ := h.scan
  · rw [h8]
    exact (bufDecode_spec { p.inbuf with pos } p.fields h7 h6
      (Nat.lt_of_lt_of_le h5 h.count_le)).accesses
  · rw [h8] at hf
    cases hf

/-- The loop of `prot_get` skips empty lines, up to a record or to the lack of one. -/
theorem protGetLoop_spec : ∀ (n : Nat) {p : Prot} {b : List UInt8}, Pending p b →
    p.allowEmpty = false → b.length < n → ∃ k p', SameOutput p p' ∧
      ((∃ line b', b = List.replicate k PROT_RECORD_SEPARATOR ++
            (line ++ PROT_RECORD_SEPARATOR :: b') ∧
          line ≠ [] ∧ protMarks.Body line ∧
          protGetLoop n p = (((reported line).length : Int), p') ∧ Holding p' line b') ∨
        (∃ b', b = List.replicate k PROT_RECORD_SEPARATOR ++ b' ∧ protMarks.NoEnd b' ∧
          protGetLoop n p = (waitCode b', p') ∧ Pending p' b'))
  | 0, _, _, _, _, hn => absurd hn (Nat.not_lt_zero _)
  | n + 1, p, b, h, he, hn => by
    obtain ⟨p₁, h1, ⟨line, b', rfl, h2, h3, h4⟩ | ⟨h2, h3, h4⟩⟩ := protDecode_spec h
    · by_cases hl : line = []
      · subst hl
        obtain ⟨h5, h6⟩ := h4.next
        have he' : (protNext p₁).allowEmpty = false := by
          rw [h6.2.2.2, h1.2.2.2, he]
        have heq : protGetLoop (n + 1) p = protGetLoop n (protNext p₁) := by
          have hc0 : p₁.fields.count = 0 := h4.count
          rw [protGetLoop, h3]
          simp [hc0, h1.2.2.2, he]
        obtain ⟨k, p', g1, g2⟩ := protGetLoop_spec n h5 he' (by simp at hn ⊢; omega)
        refine ⟨k + 1, p', h1.trans (h6.trans g1), ?_⟩
        rw [heq]
        simp only [List.replicate_succ, List.nil_append, List.cons_append, List.cons.injEq,
          true_and]
        exact g2
      · have hne := List.ne_nil_of_length_pos (reported_length_pos hl)
        refine ⟨0, p₁, h1, .inl ⟨line, b', rfl, hl, h2, ?_, h4⟩⟩
        rw [protGetLoop, h3]
        simp [hne, h4.count]
    · refine ⟨0, p₁, h1, .inr ⟨b, rfl, h2, ?_, h4⟩⟩
      rw [protGetLoop, h3]
      simp [waitCode_neg b]

/-- **`prot_get` on a handler that waits.** -/
theorem protGet_spec {p : Prot} {b : List UInt8} (h : Pending p b) (he : p.allowEmpty = false) :
    ∃ k p', SameOutput p p' ∧
      ((∃ line b', b = List.replicate k PROT_RECORD_SEPARATOR ++
            (line ++ PROT_RECORD_SEPARATOR :: b') ∧
          line ≠ [] ∧ protMarks.Body line ∧
          protGet p = (((reported line).length : Int), p') ∧ Holding p' line b') ∨
        (∃ b', b = List.replicate k PROT_RECORD_SEPARATOR ++ b' ∧ protMarks.NoEnd b' ∧
          protGet p = (waitCode b', p') ∧ Pending p' b')) :=
  protGetLoop_spec _ h he (by rw [h.length]; exact Nat.lt_succ_self _)

/-- `prot_get` on a handler that holds a record gives it again. -/
theorem Holding.get {p : Prot} {line b : List UInt8} (h : Holding p line b) (hl : line ≠ []) :
    protGet p = (((reported line).length : Int), p) := by
  have hne := List.ne_nil_of_length_pos (reported_length_pos hl)
  have hc : p.fields.count = (reported line).length := h.count
  have hn : ¬ p.fields.count < 0 := by omega
  have hd : protDecode p = (0, p) := if_neg hn
  rw [protGet, protGetLoop, hd]
  simp [hne, hc]

/-! ## The stream -/

/-- The records that are reported for lines: each but the empty ones. -/
def reports (ls : List (List UInt8)) : List (List CStr) := (ls.filter (· ≠ [])).map report

@[simp] theorem reports_nil : reports [] = [] := rfl

/-- The reports of more lines come behind. -/
theorem reports_append (a b : List (List UInt8)) : reports (a ++ b) = reports a ++ reports b := by
  simp [reports]

/-- So more lines report more. -/
theorem reports_mono {a b : List (List UInt8)} (h : a <+: b) : reports a <+: reports b := by
  obtain ⟨c, rfl⟩ := h
  rw [reports_append]
  exact List.prefix_append _ _

/-- The stream `R` is complete records, whose reports are `out`, and then `tail`. -/
def Received (R : List UInt8) (out : List (List CStr)) (tail : List UInt8) : Prop :=
  ∃ done, R = done ++ tail ∧ protMarks.rest done = [] ∧ out = reports (protMarks.lines done)

/-- Before any byte. -/
theorem Received.nil : Received [] [] [] := ⟨[], rfl, rfl, rfl⟩

/-- More bytes come behind the tail. -/
theorem Received.append {R tail : List UInt8} {out : List (List CStr)} (h : Received R out tail)
    (x : List UInt8) : Received (R ++ x) out (tail ++ x) := by
  obtain ⟨done, rfl, h1, h2⟩ := h
  exact ⟨done, List.append_assoc _ _ _, h1, h2⟩

/-- A record goes from the tail to the complete ones. -/
theorem Received.line {R line b : List UInt8} {out : List (List CStr)}
    (h : Received R out (line ++ PROT_RECORD_SEPARATOR :: b)) (hb : protMarks.Body line) :
    Received R (out ++ reports [line]) b := by
  obtain ⟨done, rfl, h1, rfl⟩ := h
  refine ⟨done ++ (line ++ [PROT_RECORD_SEPARATOR]), by simp, ?_, ?_⟩
  · rw [Marks.rest_append, h1]
    exact protMarks.rest_body_cons hb []
  · rw [Marks.lines_append, h1, reports_append]
    congr 2
    exact (protMarks.lines_body_cons hb []).symm

/-- Empty lines go from the tail without a report. -/
theorem Received.skip {R b : List UInt8} {out : List (List CStr)} :
    ∀ {k : Nat}, Received R out (List.replicate k PROT_RECORD_SEPARATOR ++ b) → Received R out b
  | 0, h => h
  | k + 1, h => by
    have h' : Received R (out ++ reports [[]]) _ := Received.line h .nil
    rw [show reports [[]] = [] from rfl, List.append_nil] at h'
    exact h'.skip

/-- When no record ends in the tail, it is what follows the last record of the stream. -/
theorem Received.noEnd {R tail : List UInt8} {out : List (List CStr)} (h : Received R out tail)
    (hn : protMarks.NoEnd tail) : out = reports (protMarks.lines R) ∧ tail = protMarks.rest R := by
  obtain ⟨done, rfl, h1, rfl⟩ := h
  obtain ⟨h3, h4⟩ := protMarks.linesFrom_noEnd [] tail hn
  refine ⟨?_, ?_⟩
  · rw [Marks.lines_append, h1, h3, List.append_nil]
  · rw [Marks.rest_append, h1, h4, List.nil_append]

/-- What was returned are the first records of the bytes. -/
theorem Received.out_isPrefix {R tail : List UInt8} {out : List (List CStr)}
    (h : Received R out tail) : out <+: reports (protMarks.lines R) := by
  obtain ⟨done, rfl, -, rfl⟩ := h
  exact reports_mono (protMarks.lines_mono (List.prefix_append _ _))

/-- The state of a receiver that was given the stream `R` and released the records `out`. -/
inductive Receiver (p : Prot) (R : List UInt8) (out : List (List CStr)) : Prop
  | waiting {b : List UInt8} : Pending p b → Received R out b → Receiver p R out
  | holding {line b : List UInt8} : Holding p line b → line ≠ [] → protMarks.Body line →
      Received R out (line ++ PROT_RECORD_SEPARATOR :: b) → Receiver p R out

/-- The two outcomes of `prot_get` on a receiver: a record is held, or none ends in the tail. -/
inductive Got (p' : Prot) (rc : Int) (R : List UInt8) (out : List (List CStr)) : Prop
  | record {line b : List UInt8} : rc = (reported line).length → Holding p' line b → line ≠ [] →
      protMarks.Body line → Received R out (line ++ PROT_RECORD_SEPARATOR :: b) → Got p' rc R out
  | none {b : List UInt8} : rc = waitCode b → Pending p' b → protMarks.NoEnd b →
      Received R out b → Got p' rc R out

/-- What `prot_get` returns, and that it leaves the output alone. -/
theorem Receiver.get {p : Prot} {R : List UInt8} {out : List (List CStr)}
    (h : Receiver p R out) (he : p.allowEmpty = false) :
    Got (protGet p).2 (protGet p).1 R out ∧ SameOutput p (protGet p).2 := by
  cases h with
  | waiting h hr =>
    obtain ⟨k, p', h1, ⟨line, b', rfl, h2, h3, h4, h5⟩ | ⟨b', rfl, h2, h3, h4⟩⟩ := protGet_spec h he
    · rw [h4]
      exact ⟨.record rfl h5 h2 h3 hr.skip, h1⟩
    · rw [h3]
      exact ⟨.none rfl h4 h2 hr.skip, h1⟩
  | holding h hl hb hr =>
    rw [h.get hl]
    exact ⟨.record rfl h hl hb hr, .refl p⟩

end SecLsmManager
