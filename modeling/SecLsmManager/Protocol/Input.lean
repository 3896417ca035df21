import SecLsmManager.Protocol.Prot

/-!
# The input side of the protocol handler

What `prot_get` reports, in terms of the text of a record. `reported line` is the fields the
handler gives for the record of text `line`, and `Pending` and `Holding` are the two states of
the input side: waiting for a record, or holding the decoded fields of one. The scan for the end
of a record (`scanLoop_spec`) reads the escapes backwards, the decoder (`DecodeIn.loop`)
forwards; `Marks.body_iff` joins the two in `protDecode_spec`.
-/

namespace SecLsmManager

open Lib

/-! ## The search for the end of a record -/

theorem countEscapes_eq (m : Nat → UInt8) (pos : Nat) :
    countEscapes m pos = protMarks.escRun (cells m 0 pos) := by
  induction pos with
  | zero => rfl
  | succ pos ih =>
    rw [countEscapes, ih, cells_succ_last, Marks.escRun_concat, Nat.zero_add]
    rfl

/-- `buf_scan_end_record` stops at the first end of record, or at the end of the bytes. -/
theorem scanLoop_spec (m : Nat → UInt8) : ∀ (n pos : Nat), protMarks.NoEnd (cells m 0 pos) →
    ∃ found pos', scanLoop m n pos = (found, pos') ∧ pos ≤ pos' ∧
      protMarks.NoEnd (cells m 0 pos') ∧
      ((found = true ∧ pos' < pos + n ∧ m pos' = PROT_RECORD_SEPARATOR ∧
          protMarks.Body (cells m 0 pos')) ∨
        (found = false ∧ pos' = pos + n))
  | 0, pos, h => ⟨false, pos, rfl, Nat.le_refl _, h, .inr ⟨rfl, rfl⟩⟩
  | n + 1, pos, h => by
    by_cases hc : m pos = PROT_RECORD_SEPARATOR ∧ countEscapes m pos % 2 = 0
    · refine ⟨true, pos, by rw [scanLoop, if_pos hc], Nat.le_refl _, h,
        .inl ⟨rfl, by omega, hc.1, (protMarks.body_iff _).2 ⟨h, ?_⟩⟩⟩
      rw [countEscapes_eq] at hc
      simp [Marks.escaped, hc.2]
    · have h' : protMarks.NoEnd (cells m 0 (pos + 1)) := by
        rw [cells_succ_last, Nat.zero_add]
        refine protMarks.noEnd_concat h fun hm => ?_
        have hodd : ¬ countEscapes m pos % 2 = 0 := fun h0 => hc ⟨hm, h0⟩
        rw [countEscapes_eq] at hodd
        simp only [Marks.escaped, decide_eq_true_eq]
        omega
      obtain ⟨found, pos', h1, h2, h3, h4⟩ := scanLoop_spec m n (pos + 1) h'
      refine ⟨found, pos', by rw [scanLoop, if_neg hc, h1], by omega, h3, ?_⟩
      rcases h4 with ⟨h5, h6, h7⟩ | ⟨h5, h6⟩
      · exact .inl ⟨h5, by omega, h7⟩
      · exact .inr ⟨h5, by omega⟩

/-! ## The decoding in place -/

/-- The fields that are reported for the record of text `line`, as decoded bytes. -/
def reported (line : List UInt8) : List (List UInt8) :=
  if line = [] then [] else (protMarks.decodeFields line).take PROT_MAX_FIELDS

/-- The fields that are reported for the record of text `line`, as C strings. -/
def report (line : List UInt8) : List CStr := (reported line).map CStr.ofBytes

/-- The string `s` and a NUL are in the cells from `off` on, below `limit`. -/
structure Holds (m : Nat → UInt8) (off : Nat) (s : List UInt8) (limit : Nat) : Prop where
  bytes : cells m off s.length = s
  nul : m (off + s.length) = 0
  below : off + s.length < limit

theorem Holds.congr {m m' : Nat → UInt8} {off limit limit' : Nat} {s : List UInt8}
    (h : Holds m off s limit) (hm : ∀ i, i < limit → m' i = m i) (hl : limit ≤ limit') :
    Holds m' off s limit' := by
  have hb := h.below
  refine ⟨?_, ?_, by omega⟩
  · rw [← h.bytes]
    simp only [cells_length]
    exact cells_congr fun k _ hk => hm k (by omega)
  · rw [hm _ hb, h.nul]

/-- Reading a held string as a C string. -/
theorem Holds.ofBytes {m : Nat → UInt8} {off limit : Nat} {s : List UInt8}
    (h : Holds m off s limit) {n : Nat} (hn : limit ≤ off + n) :
    CStr.ofBytes (cells m off n) = CStr.ofBytes s := by
  have hb := h.below
  obtain ⟨k, rfl⟩ : ∃ k, n = s.length + (k + 1) := ⟨n - s.length - 1, by omega⟩
  rw [cells_append, h.bytes, cells_succ, h.nul, CStr.ofBytes_append_nul]

/-- An access of the decoder that respects the end `e` of the record and the unread bytes. -/
def Access.Within (e : Nat) : Access → Prop
  | .read i => i ≤ e
  | .write i unread => i < unread

/-- What the decoder has written: the fields `fs` are complete and `g` is the one in progress.
Beyond the last entry of the array of fields nothing is said of `g`. -/
structure DecodeOut (d : Decoding) (fs : List (List UInt8)) (g : List UInt8) : Prop where
  count : d.count = fs.length
  count_le : fs.length ≤ PROT_MAX_FIELDS
  complete : ∀ i (h : i < fs.length), Holds d.content (d.fields i) fs[i] d.write
  current : fs.length < PROT_MAX_FIELDS →
    d.fields fs.length + g.length = d.write ∧ cells d.content (d.fields fs.length) g.length = g

theorem DecodeOut.fetch {d : Decoding} {fs : List (List UInt8)} {g : List UInt8}
    (h : DecodeOut d fs g) : DecodeOut d.fetch.2 fs g :=
  ⟨h.count, h.count_le, h.complete, h.current⟩

theorem Decoding.store_of_ne (d : Decoding) (c : UInt8) {i : Nat} (h : i ≠ d.write) :
    (d.store c).content i = d.content i := Function.update_of_ne h _ _

/-- Storing a byte extends the field in progress. -/
theorem DecodeOut.store {d : Decoding} {fs : List (List UInt8)} {g : List UInt8}
    (h : DecodeOut d fs g) (c : UInt8) : DecodeOut (d.store c) fs (g ++ [c]) := by
  refine ⟨h.count, h.count_le, fun i hi => ?_, fun hlt => ?_⟩
  · exact (h.complete i hi).congr (fun j hj => d.store_of_ne c (by omega)) (Nat.le_succ _)
  · obtain ⟨h1, h2⟩ := h.current hlt
    refine ⟨?_, ?_⟩
    · simp only [Decoding.store, List.length_append, List.length_singleton]; omega
    · simp only [Decoding.store, List.length_append, List.length_singleton]
      rw [← h1, cells_update_last, h2]

/-- A stored NUL completes the field in progress. -/
theorem DecodeOut.terminate {d : Decoding} {fs : List (List UInt8)} {g : List UInt8}
    (h : DecodeOut d fs g) (hlt : fs.length < PROT_MAX_FIELDS) :
    ∀ i (hi : i < (fs ++ [g]).length),
      Holds (d.store 0).content (d.fields i) (fs ++ [g])[i] (d.write + 1) := by
  intro i hi
  simp only [List.length_append, List.length_singleton] at hi
  rcases Nat.lt_or_ge i fs.length with hi' | hi'
  · rw [List.getElem_append_left hi']
    exact (h.complete i hi').congr (fun j hj => d.store_of_ne 0 (by omega)) (Nat.le_succ _)
  · obtain rfl : i = fs.length := by omega
    obtain ⟨h1, h2⟩ := h.current hlt
    rw [List.getElem_append_right (Nat.le_refl _)]
    simp only [Nat.sub_self, List.getElem_singleton]
    refine ⟨?_, ?_, by omega⟩
    · rw [Decoding.store, cells_update_outside _ _ (.inr (by omega)), h2]
    · simp [Decoding.store, h1]

/-- A separator completes the field in progress and starts an empty one. -/
theorem DecodeOut.separate {d d' : Decoding} {fs : List (List UInt8)} {g : List UInt8}
    (h : DecodeOut d fs g) (hlt : fs.length < PROT_MAX_FIELDS)
    (hcontent : d'.content = (d.store 0).content) (hwrite : d'.write = d.write + 1)
    (hcount : d'.count = d.count + 1)
    (hfields : d'.fields = if d.count + 1 < PROT_MAX_FIELDS then
      Function.update d.fields (d.count + 1) (d.write + 1) else d.fields) :
    DecodeOut d' (fs ++ [g]) [] := by
  have hf : ∀ i, i ≤ fs.length → d'.fields i = d.fields i := by
    intro i hi
    rw [hfields]
    split
    · exact Function.update_of_ne (by rw [h.count]; omega) _ _
    · rfl
  refine ⟨by simp [hcount, h.count], by simp; omega, fun i hi => ?_, fun hlt' => ?_⟩
  · have hi' := hi
    simp only [List.length_append, List.length_singleton] at hi'
    rw [hcontent, hwrite, hf i (by omega)]
    exact h.terminate hlt i hi
  · simp only [List.length_append, List.length_singleton] at hlt' ⊢
    rw [hfields, h.count, if_pos hlt', hwrite]
    simp

/-- Where the decoder stands in the content `m`, whose record ends at `e`. -/
structure DecodeIn (m : Nat → UInt8) (e : Nat) (d : Decoding) : Prop where
  write_le : d.write ≤ d.read
  read_le : d.read ≤ e
  unread : ∀ i, d.read ≤ i → d.content i = m i
  accesses : ∀ a ∈ d.accesses, a.Within e

theorem DecodeIn.fetch {m : Nat → UInt8} {e : Nat} {d : Decoding} (h : DecodeIn m e d)
    (hlt : d.read < e) : DecodeIn m e d.fetch.2 := by
  refine ⟨Nat.le_succ_of_le h.write_le, hlt, fun i hi => h.unread i (Nat.le_of_succ_le hi), ?_⟩
  intro a ha
  rcases List.mem_cons.1 ha with rfl | ha
  · exact h.read_le
  · exact h.accesses a ha

theorem DecodeIn.store {m : Nat → UInt8} {e : Nat} {d : Decoding} (h : DecodeIn m e d)
    (hlt : d.write < d.read) (c : UInt8) : DecodeIn m e (d.store c) := by
  refine ⟨hlt, h.read_le, fun i hi => ?_, ?_⟩
  · have hi' : d.read ≤ i := hi
    rw [d.store_of_ne c (by omega), h.unread i hi']
  · intro a ha
    rcases List.mem_cons.1 ha with rfl | ha
    · exact hlt
    · exact h.accesses a ha

/-- What the decoder leaves: the reported fields, and what follows the record untouched. -/
structure Decoded (m : Nat → UInt8) (e : Nat) (d : Decoding) : Prop where
  count : d.count = (reported (cells m 0 e)).length
  fields : ∀ i (h : i < (reported (cells m 0 e)).length),
    Holds d.content (d.fields i) (reported (cells m 0 e))[i] (e + 1)
  unread : ∀ i, e < i → d.content i = m i
  accesses : ∀ a ∈ d.accesses, a.Within e

/-- The complete fields, the field in progress and the text not read yet make up the record. -/
def Splits (m : Nat → UInt8) (e : Nat) (d : Decoding) (fs : List (List UInt8))
    (g : List UInt8) : Prop :=
  protMarks.decodeFields (cells m 0 e) =
    fs ++ Marks.prependHead g (protMarks.decodeFields (cells m d.read (e - d.read)))

theorem reported_of_pos (m : Nat → UInt8) {e : Nat} (h : 0 < e) :
    reported (cells m 0 e) = (protMarks.decodeFields (cells m 0 e)).take PROT_MAX_FIELDS := by
  refine if_neg fun h0 => ?_
  have := congrArg List.length h0
  simp at this
  omega

theorem decodeFields_separator (l : List UInt8) :
    protMarks.decodeFields (PROT_FIELD_SEPARATOR :: l) = [] :: protMarks.decodeFields l :=
  protMarks.decodeFields_sep l

theorem special_iff (c : UInt8) : protMarks.special c = true ↔
    c = PROT_FIELD_SEPARATOR ∨ c = PROT_RECORD_SEPARATOR ∨ c = PROT_ESCAPE := by
  simp only [Marks.special, Bool.or_eq_true, decide_eq_true_iff, or_assoc]
  rfl

section Steps

variable {d : Decoding}

/-- The turn on an end of record. -/
theorem Decoding.step_end (h : d.content d.read = PROT_RECORD_SEPARATOR) :
    d.step = (false, { d.fetch.2.store 0 with
      write := d.write
      count := d.count + if d.write > 0 ∧ d.count < PROT_MAX_FIELDS then 1 else 0 }) := by
  have h1 : (PROT_RECORD_SEPARATOR = PROT_FIELD_SEPARATOR) = False := by decide
  simp only [Decoding.step, Decoding.fetch, h, h1, if_false, if_true]

/-- The turn on a separator, when the array of fields is full. -/
theorem Decoding.step_sep_full (h : d.content d.read = PROT_FIELD_SEPARATOR)
    (hc : d.count ≥ PROT_MAX_FIELDS) : d.step = (false, d.fetch.2.store 0) := by
  simp only [Decoding.step, Decoding.fetch, h, if_true]
  rw [if_pos (by exact hc)]

/-- The turn on a separator, when the array of fields has room. -/
theorem Decoding.step_sep_room (h : d.content d.read = PROT_FIELD_SEPARATOR)
    (hc : d.count < PROT_MAX_FIELDS) : d.step = (true, { d.fetch.2.store 0 with
      count := d.count + 1
      fields := if d.count + 1 < PROT_MAX_FIELDS then
        Function.update d.fields (d.count + 1) (d.write + 1) else d.fields }) := by
  have hc' : ¬ (d.count ≥ PROT_MAX_FIELDS) := Nat.not_le.2 hc
  simp only [Decoding.step, Decoding.fetch, h, if_true, Decoding.store, if_neg hc']
  split <;> rfl

/-- The turn on an escape. -/
theorem Decoding.step_esc (h : d.content d.read = PROT_ESCAPE) :
    d.step = (true, if protMarks.special (d.content (d.read + 1)) then
      d.fetch.2.fetch.2.store (d.content (d.read + 1))
      else (d.fetch.2.fetch.2.store PROT_ESCAPE).store (d.content (d.read + 1))) := by
  have h1 : (PROT_ESCAPE = PROT_FIELD_SEPARATOR) = False := by decide
  have h2 : (PROT_ESCAPE = PROT_RECORD_SEPARATOR) = False := by decide
  simp only [Decoding.step, Decoding.fetch, h, h1, h2, if_false, if_true]
  have hiff := special_iff (d.content (d.read + 1))
  by_cases hs : protMarks.special (d.content (d.read + 1)) = true
  · rw [if_pos hs, if_neg]
    rintro ⟨n1, n2, n3⟩
    rcases hiff.1 hs with h' | h' | h'
    exacts [n1 h', n2 h', n3 h']
  · rw [if_neg hs, if_pos]
    exact ⟨fun h' => hs (hiff.2 (.inl h')), fun h' => hs (hiff.2 (.inr (.inl h'))),
      fun h' => hs (hiff.2 (.inr (.inr h')))⟩

/-- The turn on a plain byte. -/
theorem Decoding.step_plain (h1 : d.content d.read ≠ PROT_FIELD_SEPARATOR)
    (h2 : d.content d.read ≠ PROT_RECORD_SEPARATOR) (h3 : d.content d.read ≠ PROT_ESCAPE) :
    d.step = (true, d.fetch.2.store (d.content d.read)) := by
  simp only [Decoding.step, Decoding.fetch, h1, h2, h3, if_false]

end Steps

/-- With nothing written, the text so far is empty. -/
theorem DecodeOut.eq_nil {d : Decoding} {fs : List (List UInt8)} {g : List UInt8}
    (h : DecodeOut d fs g) (hw : d.write = 0) : fs = [] ∧ g = [] := by
  have hfs : fs = [] := by
    refine List.eq_nil_iff_length_eq_zero.2 (Nat.eq_zero_of_not_pos fun hpos => ?_)
    have := (h.complete 0 hpos).below
    omega
  subst hfs
  obtain ⟨h1, -⟩ := h.current (by decide)
  exact ⟨rfl, List.eq_nil_of_length_eq_zero (by omega)⟩

/-- The turn that finds the end of the record. -/
theorem DecodeIn.step_end {m : Nat → UInt8} {e : Nat} {d : Decoding} {fs : List (List UInt8)}
    {g : List UInt8} (h : DecodeIn m e d) (ho : DecodeOut d fs g) (hs : Splits m e d fs g)
    (hm : m e = PROT_RECORD_SEPARATOR) (hr : d.read = e) :
    ∃ d', d.step = (false, d') ∧ Decoded m e d' := by
  have hw := h.write_le
  have hc : d.content d.read = PROT_RECORD_SEPARATOR := by rw [h.unread _ (Nat.le_refl _), hr, hm]
  refine ⟨_, Decoding.step_end hc, ?_⟩
  have hdec : protMarks.decodeFields (cells m 0 e) = fs ++ [g] := by
    have hs' : protMarks.decodeFields (cells m 0 e) = _ := hs
    simpa [hr, Marks.decodeFields, Marks.prependHead] using hs'
  have hunread : ∀ i, e < i → (d.store 0).content i = m i := fun i hi => by
    rw [d.store_of_ne 0 (by omega), h.unread i (by omega)]
  have hacc : ∀ a ∈ (Access.write d.write (d.read + 1) :: .read d.read :: d.accesses),
      a.Within e := by
    intro a ha
    simp only [List.mem_cons] at ha
    rcases ha with rfl | rfl | ha
    · simp only [Access.Within]; omega
    · simp only [Access.Within]; omega
    · exact h.accesses a ha
  have hle := ho.count_le
  rcases Nat.eq_zero_or_pos d.write with hw0 | hw0
  · -- an empty record: nothing is reported
    obtain ⟨rfl, rfl⟩ := ho.eq_nil hw0
    have hnil : reported (cells m 0 e) = [] := if_pos (protMarks.eq_nil_of_decodeFields hdec)
    refine ⟨by simp [hnil, ho.count, hw0], fun i hi => ?_, hunread, hacc⟩
    simp [hnil] at hi
  · have he : 0 < e := by omega
    rcases Nat.lt_or_ge fs.length PROT_MAX_FIELDS with hlt | hge
    · have hrep : reported (cells m 0 e) = fs ++ [g] := by
        rw [reported_of_pos m he, hdec, List.take_of_length_le (by simp; omega)]
      refine ⟨?_, fun i hi => ?_, hunread, hacc⟩
      · rw [hrep]
        simp [ho.count, hlt, hw0]
      · simp only [hrep] at hi ⊢
        exact (ho.terminate hlt i hi).congr (fun _ _ => rfl) (by omega)
    · have hrep : reported (cells m 0 e) = fs := by
        rw [reported_of_pos m he, hdec, List.take_append_of_le_length hge,
          List.take_of_length_le hle]
      refine ⟨?_, fun i hi => ?_, hunread, hacc⟩
      · rw [hrep]
        simp [ho.count, Nat.not_lt.2 hge]
      · simp only [hrep] at hi ⊢
        exact (ho.complete i hi).congr (fun j hj => d.store_of_ne 0 (by omega)) (by omega)

/-- The turn on a separator beyond the last field that is reported. -/
theorem DecodeIn.step_full {m : Nat → UInt8} {e : Nat} {d : Decoding} {fs : List (List UInt8)}
    {g : List UInt8} (h : DecodeIn m e d) (ho : DecodeOut d fs g) (hs : Splits m e d fs g)
    (hlt : d.read < e) (hc : d.content d.read = PROT_FIELD_SEPARATOR)
    (hfull : fs.length = PROT_MAX_FIELDS) :
    ∃ d', d.step = (false, d') ∧ Decoded m e d' := by
  have hw := h.write_le
  refine ⟨_, Decoding.step_sep_full hc (by rw [ho.count, hfull]), ?_⟩
  have hrep : reported (cells m 0 e) = fs := by
    rw [reported_of_pos m (by omega), show protMarks.decodeFields (cells m 0 e) = _ from hs,
      List.take_append_of_le_length (by omega), List.take_of_length_le (by omega)]
  have hf := (h.fetch hlt).store (Nat.lt_succ_of_le hw) 0
  refine ⟨?_, fun i hi => ?_, fun i hi => hf.unread i (Nat.succ_le_of_lt (by omega)), hf.accesses⟩
  · rw [hrep]
    exact ho.count
  · simp only [hrep] at hi ⊢
    exact (ho.complete i hi).congr (fun j hj => d.store_of_ne 0 (by omega)) (by omega)

/-- The turn on an escape, which is not the last byte of the record. -/
theorem DecodeIn.step_pair {m : Nat → UInt8} {e : Nat} {d : Decoding} {fs : List (List UInt8)}
    {g : List UInt8} (h : DecodeIn m e d) (ho : DecodeOut d fs g) (hlt : d.read < e)
    (hc : d.content d.read = PROT_ESCAPE) {y : UInt8} {l : List UInt8}
    (hl : cells m (d.read + 1) (e - (d.read + 1)) = y :: l) (hb : protMarks.Body l)
    (hs : protMarks.decodeFields (cells m 0 e) =
      fs ++ Marks.prependHead g (protMarks.decodeFields (protMarks.esc :: y :: l))) :
    ∃ d' fs' g', d.step = (true, d') ∧ DecodeIn m e d' ∧ DecodeOut d' fs' g' ∧
      Splits m e d' fs' g' ∧ protMarks.Body (cells m d'.read (e - d'.read)) ∧
      d.read < d'.read := by
  have hw := h.write_le
  have hlen := congrArg List.length hl
  simp only [cells_length, List.length_cons] at hlen
  have hlt' : d.read + 1 < e := by omega
  have hcells' : cells m (d.read + 1) (e - (d.read + 1)) =
      m (d.read + 1) :: cells m (d.read + 2) (e - (d.read + 2)) := by
    rw [← cells_succ]
    congr 1
    omega
  rw [hcells'] at hl
  obtain ⟨hy, hl⟩ := List.cons.inj hl
  have hcy : d.content (d.read + 1) = y := by rw [h.unread _ (Nat.le_succ _), hy]
  have hin' := (h.fetch hlt).fetch hlt'
  have hw1 : d.write < d.read + 2 := by omega
  have hw2 : d.write + 1 < d.read + 2 := by omega
  rw [protMarks.decodeFields_pair, Marks.prependHead_prependHead] at hs
  refine ⟨_, fs, g ++ (if protMarks.special y then [y] else [protMarks.esc, y]),
    Decoding.step_esc hc, ?_⟩
  rw [hcy]
  cases hsp : protMarks.special y with
  | true =>
    simp only [hsp, if_true] at hs ⊢
    refine ⟨hin'.store hw1 y, ho.fetch.fetch.store y, ?_, ?_,
      Nat.lt_succ_of_lt (Nat.lt_succ_self _)⟩
    · change protMarks.decodeFields _ =
        _ ++ Marks.prependHead _ (protMarks.decodeFields (cells m (d.read + 2) (e - (d.read + 2))))
      rw [hl, hs]
    · change protMarks.Body (cells m (d.read + 2) (e - (d.read + 2)))
      rwa [hl]
  | false =>
    simp only [hsp, Bool.false_eq_true, if_false] at hs ⊢
    have ho' := (ho.fetch.fetch.store PROT_ESCAPE).store y
    rw [List.append_assoc] at ho'
    refine ⟨(hin'.store hw1 _).store hw2 y, ho', ?_, ?_, Nat.lt_succ_of_lt (Nat.lt_succ_self _)⟩
    · change protMarks.decodeFields _ =
        _ ++ Marks.prependHead _ (protMarks.decodeFields (cells m (d.read + 2) (e - (d.read + 2))))
      rw [hl, hs]
    · change protMarks.Body (cells m (d.read + 2) (e - (d.read + 2)))
      rwa [hl]

/-- **One turn of the decoder.** It goes on with one more piece of the text read, or it stops
with the reported fields in place. -/
theorem DecodeIn.step {m : Nat → UInt8} {e : Nat} {d : Decoding} {fs : List (List UInt8)}
    {g : List UInt8} (h : DecodeIn m e d) (ho : DecodeOut d fs g) (hs : Splits m e d fs g)
    (hm : m e = PROT_RECORD_SEPARATOR) (hb : protMarks.Body (cells m d.read (e - d.read))) :
    (∃ d', d.step = (false, d') ∧ Decoded m e d') ∨
    (∃ d' fs' g', d.step = (true, d') ∧ DecodeIn m e d' ∧ DecodeOut d' fs' g' ∧
      Splits m e d' fs' g' ∧ protMarks.Body (cells m d'.read (e - d'.read)) ∧
      d.read < d'.read) := by
  have hw := h.write_le
  rcases Nat.eq_or_lt_of_le h.read_le with hr | hlt
  · exact .inl (h.step_end ho hs hm hr)
  have hc : d.content d.read = m d.read := h.unread _ (Nat.le_refl _)
  have hcells :
      cells m d.read (e - d.read) = m d.read :: cells m (d.read + 1) (e - (d.read + 1)) := by
    rw [← cells_succ]
    congr 1
    omega
  unfold Splits at hs
  rw [hcells] at hb hs
  have hin := (h.fetch hlt)
  generalize hl : cells m (d.read + 1) (e - (d.read + 1)) = l at hb hs
  generalize hx : m d.read = x at hb hs hc
  cases hb with
  | plain h1 h2 hb =>
    by_cases hsep : x = PROT_FIELD_SEPARATOR
    · subst hsep
      rw [decodeFields_separator] at hs
      rcases Nat.lt_or_ge fs.length PROT_MAX_FIELDS with hroom | hfull
      · -- the separator completes a field
        refine .inr ⟨_, fs ++ [g], [], Decoding.step_sep_room hc (by rwa [ho.count]), ?_,
          ho.separate hroom rfl rfl rfl rfl, ?_, ?_, Nat.lt_succ_self _⟩
        · exact { hin.store (Nat.lt_succ_of_le hw) 0 with }
        · change protMarks.decodeFields _ =
            _ ++ Marks.prependHead []
              (protMarks.decodeFields (cells m (d.read + 1) (e - (d.read + 1))))
          rw [hl, hs, Marks.prependHead_nil (protMarks.decodeFields_ne_nil _)]
          simp [Marks.prependHead]
        · change protMarks.Body (cells m (d.read + 1) (e - (d.read + 1)))
          rwa [hl]
      · refine .inl (h.step_full ho ?_ hlt hc (Nat.le_antisymm ho.count_le hfull))
        rw [Splits, hcells, hl, hx, decodeFields_separator]
        exact hs
    · -- a plain byte
      refine .inr ⟨_, fs, g ++ [x], ?_, hin.store (Nat.lt_succ_of_le hw) x, ho.fetch.store x,
        ?_, ?_, Nat.lt_succ_self _⟩
      · rw [Decoding.step_plain (by rwa [hc]) (by rwa [hc]) (by rwa [hc]), hc]
      · change protMarks.decodeFields _ =
          _ ++ Marks.prependHead _
            (protMarks.decodeFields (cells m (d.read + 1) (e - (d.read + 1))))
        rw [hl, hs, protMarks.decodeFields_plain hsep h2, Marks.prependHead_prependHead]
      · change protMarks.Body (cells m (d.read + 1) (e - (d.read + 1)))
        rwa [hl]
  | pair y hb => exact .inr (h.step_pair ho hlt hc hl hb hs)

/-- The loop of the decoder stops with the reported fields in place, given a turn for each byte
left. -/
theorem DecodeIn.loop {m : Nat → UInt8} {e : Nat} (hm : m e = PROT_RECORD_SEPARATOR) :
    ∀ (n : Nat) {d : Decoding} {fs : List (List UInt8)} {g : List UInt8}, DecodeIn m e d →
      DecodeOut d fs g → Splits m e d fs g → protMarks.Body (cells m d.read (e - d.read)) →
      e < n + d.read → Decoded m e (d.loop n)
  | 0, d, _, _, h, _, _, _, hn => absurd h.read_le (by omega)
  | n + 1, d, _, _, h, ho, hs, hb, hn => by
    rcases h.step ho hs hm hb with ⟨d', h1, h2⟩ | ⟨d', fs', g', h1, h2, h3, h4, h5, h6⟩
    · rw [Decoding.loop, h1]
      exact h2
    · rw [Decoding.loop, h1]
      exact DecodeIn.loop hm n h2 h3 h4 h5 (by omega)

/-- **`buf_get_fields` decodes the record.** -/
theorem bufDecode_spec (buf : Buf) (fields : Fields)
    (hb : protMarks.Body (cells buf.content 0 buf.pos))
    (hm : buf.content buf.pos = PROT_RECORD_SEPARATOR) (hlt : buf.pos < PROT_MAX_BUFFER_LENGTH) :
    Decoded buf.content buf.pos (bufDecode buf fields) := by
  have hout : DecodeOut (Decoding.init buf fields) [] [] := ⟨rfl, Nat.zero_le _,
    fun i hi => absurd hi (Nat.not_lt_zero _), fun _ => ⟨by simp [Decoding.init], rfl⟩⟩
  refine DecodeIn.loop hm _ ⟨Nat.le_refl _, Nat.zero_le _, fun _ _ => rfl, ?_⟩ hout ?_ hb ?_
  · exact fun a ha => absurd ha (List.not_mem_nil)
  · exact (Marks.prependHead_nil (protMarks.decodeFields_ne_nil _)).symm
  · exact hlt

end SecLsmManager
