import SecLsmManager.Templating.Process

/-!
# Templates from pieces

Templates that are written as runs of texts and markers with sections between them, and a check
that is enough for them to be well formed.
-/

namespace SecLsmManager

variable {context : Context}

/-- A text in front of a template. -/
def Template.prepend (s : List UInt8) : Template → Template
  | .text t => .text (s ++ t)
  | .marker t blanks m rest => .marker (s ++ t) blanks m rest
  | .check t inverted test opening closing body rest =>
    .check (s ++ t) inverted test opening closing body rest
  | .plugs t opening closing body rest => .plugs (s ++ t) opening closing body rest

/-- Pieces in front of a template, with no blanks in the tags. -/
def Template.ofPieces : List Piece → Template → Template
  | [], t => t
  | .text s :: pieces, t => (ofPieces pieces t).prepend s
  | .marker m :: pieces, t => .marker [] .none m (ofPieces pieces t)

/-! ## The rendering -/

/-- A text in front of a template is rendered in front. -/
theorem Template.render_prepend (s : List UInt8) (t : Template) (plug : Option Plug) :
    (t.prepend s).render context plug = s ++ t.render context plug := by
  cases t <;> simp [prepend, render]

/-- Pieces in front of a template are rendered in front. -/
theorem Template.render_ofPieces (pieces : List Piece) (t : Template) (plug : Option Plug) :
    (ofPieces pieces t).render context plug =
      renderPieces context plug pieces ++ t.render context plug := by
  induction pieces with
  | nil => rfl
  | cons piece pieces ih =>
    cases piece with
    | text s => simp [ofPieces, render_prepend, ih, Piece.render]
    | marker m => simp [ofPieces, render, ih, Piece.render]

/-- A text in front of a template does not cut it. -/
theorem Template.cut_prepend (s : List UInt8) {t : Template} (h : t.cut context = none) :
    (t.prepend s).cut context = none := by
  cases t with
  | text => rfl
  | marker | plugs => simpa [prepend, cut] using h
  | check t inverted test opening closing body rest =>
    rw [cut] at h
    rw [prepend, cut]
    cases hholds : test.holds context with
    | true =>
      rw [hholds, if_pos rfl] at h
      cases inverted <;> cases hbody : body.cut context <;> simp [hbody] at h
    | false =>
      rw [hholds, if_neg Bool.false_ne_true] at h
      cases inverted with
      | false => simpa using h
      | true => cases hbody : body.cut context <;> simp [hbody] at h ⊢; exact h

/-- What texts and markers in front of a template keep, pieces keep. -/
theorem Template.ofPieces_keeps {P : Template → Prop} (htext : ∀ s t, P t → P (t.prepend s))
    (hmarker : ∀ m t, P t → P (.marker [] .none m t)) {t : Template} (h : P t)
    (pieces : List Piece) : P (ofPieces pieces t) := by
  induction pieces with
  | nil => exact h
  | cons piece pieces ih =>
    cases piece with
    | text s => exact htext s _ ih
    | marker m => exact hmarker m _ ih

/-- No section of a permission is behind the pieces. -/
theorem Template.cut_ofPieces {t : Template} (h : t.cut context = none) (pieces : List Piece) :
    (ofPieces pieces t).cut context = none :=
  ofPieces_keeps (P := fun t => t.cut context = none) (fun s _ ht => cut_prepend s ht)
    (fun m t ht => by simp [cut, ht]) h pieces

/-! ## The sections -/

/-- Pieces keep a template that is inside a section. -/
theorem Template.inside_ofPieces {t : Template} (h : t.Inside) (pieces : List Piece) :
    (ofPieces pieces t).Inside := by
  refine ofPieces_keeps (fun s t ht => ?_) (fun _ _ ht => ht) h pieces
  cases t <;> exact ht

/-- Pieces do not change how the sections are nested. -/
theorem Template.shaped_ofPieces {t : Template} (h : t.Shaped) (pieces : List Piece) :
    (ofPieces pieces t).Shaped := by
  refine ofPieces_keeps (fun s t ht => ?_) (fun _ _ ht => ht) h pieces
  cases t <;> exact ht

/-- Pieces have no section that moves the cursor. -/
theorem Template.cursorSafe_ofPieces {t : Template} (h : t.CursorSafe context)
    (pieces : List Piece) : (ofPieces pieces t).CursorSafe context := by
  refine ofPieces_keeps (P := (·.CursorSafe context)) (fun s t ht => ?_) (fun _ _ ht => ht) h
    pieces
  cases t <;> exact ht

/-! ## Well-formedness -/

/-- A text without NUL and braces that open. -/
def plainText (s : List UInt8) : Bool := s.all fun c => c != 0 && c != 123

/-- A name without blanks and braces that close. -/
def plainName (name : CStr) : Bool :=
  decide (name.length ≤ MUSTACH_MAX_LENGTH) && name.bytes.all fun c => c != 125 && !isspace c

def plainBlanks (blanks : Blanks) : Bool := blanks.left.isEmpty && blanks.right.isEmpty

/-- A template of plain texts and names, without blanks in its tags. -/
def Template.plain : Template → Bool
  | .text s => plainText s
  | .marker s blanks _ rest => plainText s && plainBlanks blanks && rest.plain
  | .check s _ test opening closing body rest => plainText s && plainName test.name &&
    plainBlanks opening && plainBlanks closing && body.plain && rest.plain
  | .plugs s opening closing body rest => plainText s && plainBlanks opening &&
    plainBlanks closing && body.plain && rest.plain

/-- A plain text opens no tag. -/
theorem plainText_opensNot {s : List UInt8} (h : plainText s = true) (last : Bool) :
    OpensNot last s := by
  have hall : ∀ c ∈ s, c ≠ 0 ∧ c ≠ 123 := by simpa [plainText] using h
  refine ⟨fun hm => (hall 0 hm).1 rfl, fun hi => ?_⟩
  -- one brace at most is in the text and what follows it
  have hcount := hi.sublist.count_le 123
  have hnone : s.count 123 = 0 := List.count_eq_zero.2 fun hm => (hall 123 hm).2 rfl
  rw [List.count_append, hnone] at hcount
  cases last <;> simp at hcount

/-- A plain name fits in its tag. -/
theorem plainName_fit {blanks : Blanks} (hblanks : plainBlanks blanks = true) {name : CStr}
    (h : plainName name = true) : blanks.Fit name := by
  obtain ⟨left, right⟩ := blanks
  obtain ⟨rfl, rfl⟩ : left = [] ∧ right = [] := by simpa [plainBlanks] using hblanks
  obtain ⟨hshort, hall⟩ : name.length ≤ MUSTACH_MAX_LENGTH ∧
      ∀ c ∈ name.bytes, c ≠ 125 ∧ isspace c = false := by simpa [plainName] using h
  refine plainFit hshort (fun c hc => (hall c (List.mem_of_mem_getLast? hc)).2) fun hi => ?_
  have hcount := hi.sublist.count_le 125
  have hnone : name.bytes.count 125 = 0 := List.count_eq_zero.2 fun hm => (hall 125 hm).1 rfl
  rw [List.count_append, hnone] at hcount
  simp at hcount

/-- The names of the markers are plain. -/
theorem Marker.plainName (m : Marker) : plainName m.name = true := by
  cases m <;> decide +kernel

/-- So is that of the section of the plugs. -/
theorem plainName_plugs : plainName plugsName = true := by decide +kernel

/-- A plain template is well formed. -/
theorem Template.plain_wellFormed {t : Template} (h : t.plain = true) (last : Bool) :
    t.WellFormed last := by
  induction t generalizing last with
  | text s => exact plainText_opensNot h last
  | marker s blanks m rest ih =>
    simp only [plain, Bool.and_eq_true] at h
    obtain ⟨⟨hs, hblanks⟩, hrest⟩ := h
    exact ⟨plainText_opensNot hs _, plainName_fit hblanks m.plainName, ih hrest last⟩
  | check s inverted test opening closing body rest ihbody ihrest =>
    simp only [plain, Bool.and_eq_true] at h
    obtain ⟨⟨⟨⟨⟨hs, hname⟩, ho⟩, hc⟩, hbody⟩, hrest⟩ := h
    exact ⟨plainText_opensNot hs _, plainName_fit ho hname, plainName_fit hc hname,
      ihbody hbody _, ihrest hrest last⟩
  | plugs s opening closing body rest ihbody ihrest =>
    simp only [plain, Bool.and_eq_true] at h
    obtain ⟨⟨⟨⟨hs, ho⟩, hc⟩, hbody⟩, hrest⟩ := h
    exact ⟨plainText_opensNot hs _, plainName_fit ho plainName_plugs,
      plainName_fit hc plainName_plugs, ihbody hbody _, ihrest hrest last⟩

end SecLsmManager
