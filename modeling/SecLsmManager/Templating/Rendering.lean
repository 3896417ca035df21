import SecLsmManager.Templating.Engine
import SecLsmManager.Templating.Template

/-!
# Rendering of templates

Templates as the trees of their sections, the text that is written of them (`Template.written`),
and their reference rendering (`Template.render`). The engine walks the text with a single current
plug: the first section of a permission that it closes among the plugs uses the plugs up.
-/

namespace SecLsmManager

/-! ## Templates -/

/-- The markers `id`, `id_underscore`, `_id_`, `impid` and `_impid_`. -/
inductive Marker
  | id | idUnderscore | underId | impid | underImpid
  deriving DecidableEq

def Marker.name : Marker → CStr
  | .id => .lit "id"
  | .idUnderscore => .lit "id_underscore"
  | .underId => .lit "_id_"
  | .impid => .lit "impid"
  | .underImpid => .lit "_impid_"

/-- What the sections `p=X` and `has-plugs` test. -/
inductive Check
  | permission (permission : CStr)
  | hasPlugs
  deriving DecidableEq

def Check.name : Check → CStr
  | .permission p => .lit "p=" ++ p
  | .hasPlugs => .lit "has-plugs"

def Check.holds (context : Context) : Check → Bool
  | .permission p => contextHasPermission context p
  | .hasPlugs => !context.plugset.isEmpty

/-- The blanks around the name of a tag. -/
structure Blanks where
  left : List UInt8
  right : List UInt8

def Blanks.around (blanks : Blanks) (name : CStr) : List UInt8 :=
  blanks.left ++ name.bytes ++ blanks.right

/-- A balanced template. Each tag comes with the text before it; a section has the blanks of its
two tags. -/
inductive Template
  | text (s : List UInt8)
  | marker (s : List UInt8) (blanks : Blanks) (m : Marker) (rest : Template)
  | check (s : List UInt8) (inverted : Bool) (test : Check) (opening closing : Blanks)
      (body rest : Template)
  | plugs (s : List UInt8) (opening closing : Blanks) (body rest : Template)

def tagText (beg : List UInt8) : List UInt8 := [123, 123] ++ (beg ++ [125, 125])

def beginText (inverted : Bool) (blanks : Blanks) (name : CStr) : List UInt8 :=
  tagText ((if inverted then 94 else 35) :: blanks.around name)

def endText (blanks : Blanks) (name : CStr) : List UInt8 := tagText (47 :: blanks.around name)

def plugsName : CStr := .lit "plugs"

namespace Template

/-- The text of a template. -/
def written : Template → List UInt8
  | .text s => s
  | .marker s blanks m rest => s ++ (tagText (blanks.around m.name) ++ rest.written)
  | .check s inverted test opening closing body rest =>
    s ++ (beginText inverted opening test.name ++
      (body.written ++ (endText closing test.name ++ rest.written)))
  | .plugs s opening closing body rest =>
    s ++ (beginText false opening plugsName ++
      (body.written ++ (endText closing plugsName ++ rest.written)))

/-- How deep the sections are nested. -/
def depth : Template → Nat
  | .text _ => 0
  | .marker _ _ _ rest => rest.depth
  | .check _ _ _ _ _ body rest => max (body.depth + 1) rest.depth
  | .plugs _ _ _ body rest => max (body.depth + 1) rest.depth

/-- Only sections of permissions. -/
def Inside : Template → Prop
  | .text _ => True
  | .marker _ _ _ rest => rest.Inside
  | .check _ _ test _ _ body rest => (∃ p, test = .permission p) ∧
    body.Inside ∧ rest.Inside
  | .plugs .. => False

/-- Only sections of permissions inside a section of the plugs. -/
def Shaped : Template → Prop
  | .text _ => True
  | .marker _ _ _ rest => rest.Shaped
  | .check _ _ _ _ _ body rest => body.Shaped ∧ rest.Shaped
  | .plugs _ _ _ body rest => body.Inside ∧ rest.Shaped

end Template

/-- Blanks and a name that make a tag: the name keeps the limit and is not cut by a closing
separator, and the blanks at its end are counted with those behind it. -/
structure Blanks.Fit (blanks : Blanks) (name : CStr) : Prop where
  left : ∀ c ∈ blanks.left, isspace c = true
  right : ∀ c ∈ blanks.right, isspace c = true
  short : name.length ≤ MUSTACH_MAX_LENGTH
  last : ∀ c ∈ name.bytes.getLast?, isspace c = false
  unclosed : ¬ [125, 125] <:+: blanks.around name ++ [125]

/-- The texts open no tag and the tags are tags. The last text of the template has nothing
behind it. -/
def Template.WellFormed (last : Bool) : Template → Prop
  | .text s => OpensNot last s
  | .marker s blanks m rest => OpensNot false s ∧ blanks.Fit m.name ∧ rest.WellFormed last
  | .check s _ test opening closing body rest => OpensNot false s ∧ opening.Fit test.name ∧
    closing.Fit test.name ∧ body.WellFormed false ∧ rest.WellFormed last
  | .plugs s opening closing body rest => OpensNot false s ∧ opening.Fit plugsName ∧
    closing.Fit plugsName ∧ body.WellFormed false ∧ rest.WellFormed last

/-! ## The reference rendering -/

/-- A marker, for the plug it stands under. -/
def Marker.render (context : Context) (plug : Option Plug) : Marker → List UInt8
  | .id => context.idString.bytes
  | .idUnderscore | .underId => context.idString.bytes.map TemplateData.underscored
  | .impid => (plug.map fun p => p.impid.bytes).getD []
  | .underImpid => (plug.map fun p => p.impid.bytes.map TemplateData.underscored).getD []

def Template.render (context : Context) : Template → Option Plug → List UInt8
  | .text s, _ => s
  | .marker s _ m rest, plug => s ++ (m.render context plug ++ rest.render context plug)
  | .check s inverted test _ _ body rest, plug =>
    s ++ ((if test.holds context ≠ inverted then body.render context plug else []) ++
      rest.render context plug)
  | .plugs s _ _ body rest, plug =>
    s ++ (context.plugset.flatMap (fun p => body.render context (some p)) ++
      rest.render context plug)

/-! ## Names of tags -/

/-- A name that fits, with no blank before it, is the name of its tag. -/
theorem Blanks.Fit.named {blanks : Blanks} {name : CStr} (h : blanks.Fit name)
    (hne : name.bytes ≠ []) (hfirst : ∀ c ∈ name.bytes.head?, isspace c = false) :
    Named name.bytes (blanks.around name) :=
  ⟨hne, h.short, ⟨blanks.left, blanks.right, rfl, h.left, h.right⟩, hfirst, h.last⟩

/-- The name of a check begins with no blank. -/
theorem Check.name_first (test : Check) :
    test.name.bytes ≠ [] ∧ ∀ c ∈ test.name.bytes.head?, isspace c = false := by
  cases test with
  | permission p =>
    have hp : (CStr.lit "p=").bytes = [112, 61] := by decide
    simp only [Check.name, CStr.bytes_append, hp]
    refine ⟨by simp, ?_⟩
    rintro c hc
    cases hc
    rfl
  | hasPlugs => decide +kernel

/-- Nor does that of the section of the plugs. -/
theorem plugsName_first :
    plugsName.bytes ≠ [] ∧ ∀ c ∈ plugsName.bytes.head?, isspace c = false := by
  decide +kernel

/-- Nor that of a marker, which begins with no mark either. -/
theorem Marker.name_first (m : Marker) : m.name.bytes ≠ [] ∧
    (∀ c ∈ m.name.bytes.head?, isspace c = false) ∧ ∀ c ∈ m.name.bytes.head?, c ∉ tagMarks := by
  cases m <;> decide +kernel

/-- A mark in front of a name closes no tag. -/
theorem unclosed_mark {c : UInt8} (hc : c ≠ 125) {s : List UInt8} (h : ¬ [125, 125] <:+: s) :
    ¬ [125, 125] <:+: c :: s := by
  rw [List.infix_cons_iff, List.cons_prefix_cons]
  rintro (⟨rfl, -⟩ | hi)
  · exact hc rfl
  · exact h hi

/-! ## Turns on the tags -/

variable {context : Context}

/-- The value of a marker, for the plug that comes first. -/
theorem put_marker (plug : List Plug) (m : Marker) :
    TemplateData.put ⟨context, plug⟩ m.name true =
      (0, m.render context plug.head?) := by
  cases m <;> cases plug <;> rfl

/-- A check is entered as it holds, and the plugs stay. -/
theorem enter_check (plug : List Plug) {test : Check}
    (h : plug = [] ∨ ∃ p, test = .permission p) :
    TemplateData.enter ⟨context, plug⟩ (.ofBytes test.name.bytes) =
      ((test.holds context).toInt, ⟨context, plug⟩) := by
  cases test with
  | permission p =>
    have hp : (CStr.lit "p=").bytes = [112, 61] := by decide
    have hname : (Check.permission p).name.bytes = [112, 61] ++ p.bytes := by
      simp only [Check.name, CStr.bytes_append, hp]
    rw [CStr.ofBytes_bytes, TemplateData.enter, if_pos ⟨p.bytes, hname.symm⟩, hname]
    simp [Check.holds]
  | hasPlugs =>
    obtain rfl | ⟨p, hp⟩ := h
    · rfl
    · cases hp

/-- The section of the plugs is entered when there is one. -/
theorem enter_plugs :
    TemplateData.enter ⟨context, []⟩ (.ofBytes plugsName.bytes) =
      ((!context.plugset.isEmpty).toInt, ⟨context, context.plugset⟩) := rfl

/-- A tag is between its separators. -/
theorem tagText_append (beg r : List UInt8) :
    tagText beg ++ r = [123, 123] ++ (beg ++ ([125, 125] ++ r)) := by
  simp only [tagText, List.append_assoc]

/-- A tag may follow a text. -/
theorem follows_tag (beg r : List UInt8) : Follows false (tagText beg ++ r) :=
  ⟨beg ++ ([125, 125] ++ r), (tagText_append beg r).symm⟩

/-- A marker is replaced by its value, where something is enabled. -/
theorem leads_marker {blanks : Blanks} {m : Marker} (h : blanks.Fit m.name) (stack : List Frame)
    (enabled : Bool) (plug : List Plug) (r file : List UInt8) :
    Leads templateItf
      (processing stack enabled ⟨context, plug⟩ (tagText (blanks.around m.name) ++ r) file)
      (processing stack enabled ⟨context, plug⟩ r
        (if enabled then file ++ m.render context plug.head? else file)) := by
  have hname := h.named m.name_first.1 m.name_first.2.1
  have hmark : ∀ c ∈ (blanks.around m.name).head?, c ∉ tagMarks := by
    have hblank : ∀ c, isspace c = true → c ∉ tagMarks := by
      intro c hc hm
      have hall : tagMarks.all (fun c => !isspace c) = true := by decide
      have hno := List.all_eq_true.1 hall c hm
      rw [hc] at hno
      exact Bool.false_ne_true hno
    intro c hc
    cases hleft : blanks.left with
    | nil =>
      have hfirst := m.name_first.2.2
      rw [Blanks.around, hleft, List.nil_append, List.head?_append_of_ne_nil _ m.name_first.1] at hc
      exact hfirst c hc
    | cons b left =>
      rw [Blanks.around, hleft] at hc
      obtain rfl : b = c := Option.some.inj hc
      exact hblank b (h.left b (by rw [hleft]; exact List.mem_cons_self))
  rw [tagText_append]
  refine .turn ((turn_tag h.unclosed (readTag_name hname hmark _ r) ..).trans ?_)
  cases enabled with
  | false => rfl
  | true => simp [Mustach.act, processing, templateItf, put_marker]

/-- The beginning of a section: it is entered where its surroundings are enabled. -/
theorem leads_begin_any {blanks : Blanks} {name : CStr} (h : blanks.Fit name)
    (hfirst : name.bytes ≠ [] ∧ ∀ c ∈ name.bytes.head?, isspace c = false) {stack : List Frame}
    (hdepth : stack.length < MUSTACH_MAX_DEPTH) {data data' : TemplateData}
    {enabled entered : Bool}
    (henter : enabled = true → data.enter (.ofBytes name.bytes) = (entered.toInt, data'))
    (inverted : Bool) (r file : List UInt8) :
    Leads templateItf (processing stack enabled data (beginText inverted blanks name ++ r) file)
      (processing (⟨name.bytes, r, enabled, enabled && entered⟩ :: stack)
        (enabled && (entered != inverted)) (if enabled then data' else data) r file) := by
  have hname := h.named hfirst.1 hfirst.2
  have hmark : (if inverted then 94 else 35 : UInt8) ≠ 125 := by cases inverted <;> decide
  rw [beginText, tagText_append]
  refine .turn ((turn_tag (unclosed_mark hmark h.unclosed)
    (readTag_begin hname inverted _ r) ..).trans ?_)
  cases enabled with
  | true =>
    simp only [Mustach.act, processing, templateItf, henter rfl, if_neg hdepth.ne, if_true]
    cases entered <;> cases inverted <;> rfl
  | false =>
    simp only [Mustach.act, processing, if_neg hdepth.ne, Bool.false_eq_true, if_false]
    cases inverted <;> rfl

/-- The beginning of a section, where something is enabled. -/
theorem leads_begin {blanks : Blanks} {name : CStr} (h : blanks.Fit name)
    (hfirst : name.bytes ≠ [] ∧ ∀ c ∈ name.bytes.head?, isspace c = false) {stack : List Frame}
    (hdepth : stack.length < MUSTACH_MAX_DEPTH) {data data' : TemplateData} {entered : Bool}
    (henter : data.enter (.ofBytes name.bytes) = (entered.toInt, data')) (inverted : Bool)
    (r file : List UInt8) :
    Leads templateItf (processing stack true data (beginText inverted blanks name ++ r) file)
      (processing (⟨name.bytes, r, true, entered⟩ :: stack) (entered != inverted) data' r file) :=
  leads_begin_any h hfirst hdepth (fun _ => henter) inverted r file

/-- The beginning of a section under which nothing is enabled. -/
theorem leads_begin_skip {blanks : Blanks} {name : CStr} (h : blanks.Fit name)
    (hfirst : name.bytes ≠ [] ∧ ∀ c ∈ name.bytes.head?, isspace c = false) {stack : List Frame}
    (hdepth : stack.length < MUSTACH_MAX_DEPTH) (data : TemplateData) (inverted : Bool)
    (r file : List UInt8) :
    Leads templateItf (processing stack false data (beginText inverted blanks name ++ r) file)
      (processing (⟨name.bytes, r, false, false⟩ :: stack) false data r file) :=
  @leads_begin_any _ _ h hfirst _ hdepth data data false false nofun inverted r file

/-- The end of a section that was not entered, or under which nothing is enabled. -/
theorem leads_end {blanks : Blanks} {name : CStr} (h : blanks.Fit name)
    (hfirst : name.bytes ≠ [] ∧ ∀ c ∈ name.bytes.head?, isspace c = false) {frame : Frame}
    (hname : frame.name = name.bytes) {enabled : Bool} (hnext : (enabled && frame.entered) = false)
    (stack : List Frame) (data : TemplateData) (r file : List UInt8) :
    Leads templateItf (processing (frame :: stack) enabled data (endText blanks name ++ r) file)
      (processing stack frame.enabled
        (if frame.enabled && frame.entered then data.leave else data) r file) := by
  rw [endText, tagText_append]
  refine .turn ((turn_tag (unclosed_mark (by decide) h.unclosed)
    (readTag_end (h.named hfirst.1 hfirst.2) _ r) ..).trans ?_)
  simp [Mustach.act, processing, templateItf, hname, hnext]

/-- The end of a section that was entered: the next item, or the end of the items. -/
theorem leads_end_next {blanks : Blanks} {name : CStr} (h : blanks.Fit name)
    (hfirst : name.bytes ≠ [] ∧ ∀ c ∈ name.bytes.head?, isspace c = false) {again : List UInt8}
    (stack : List Frame) (plug : List Plug) (r file : List UInt8) :
    Leads templateItf
      (processing (⟨name.bytes, again, true, true⟩ :: stack) true ⟨context, plug⟩
        (endText blanks name ++ r) file)
      (if plug.tail = [] then processing stack true ⟨context, []⟩ r file
        else processing (⟨name.bytes, again, true, true⟩ :: stack) true ⟨context, plug.tail⟩ again
          file) := by
  rw [endText, tagText_append]
  refine .turn ((turn_tag (unclosed_mark (by decide) h.unclosed)
    (readTag_end (h.named hfirst.1 hfirst.2) _ r) ..).trans ?_)
  cases hplug : plug.tail <;>
    simp [Mustach.act, processing, templateItf, TemplateData.next, TemplateData.leave, hplug]

/-! ## Sections -/

/-- A section that is not enabled is passed over. -/
theorem leads_skipped {name : CStr}
    (hfirst : name.bytes ≠ [] ∧ ∀ c ∈ name.bytes.head?, isspace c = false)
    {opening closing : Blanks} (ho : opening.Fit name) (hc : closing.Fit name)
    {stack : List Frame} {body : List UInt8} (hdepth : stack.length < MUSTACH_MAX_DEPTH)
    (hbody : ∀ frame : Frame, ∀ data r file, Follows false r →
      Leads templateItf (processing (frame :: stack) false data (body ++ r) file)
        (processing (frame :: stack) false data r file))
    (inverted : Bool) (data : TemplateData) (r file : List UInt8) :
    Leads templateItf
      (processing stack false data
        (beginText inverted opening name ++ (body ++ (endText closing name ++ r))) file)
      (processing stack false data r file) := by
  refine (leads_begin_skip ho hfirst hdepth ..).trans ?_
  refine (hbody _ _ _ _ (follows_tag _ _)).trans ?_
  exact leads_end hc hfirst rfl rfl stack data r file

/-- The depth in the body of a section and behind it. -/
theorem depth_section {stack : List Frame} {body rest : Nat}
    (h : stack.length + max (body + 1) rest ≤ MUSTACH_MAX_DEPTH) :
    stack.length < MUSTACH_MAX_DEPTH ∧
      (∀ frame : Frame, (frame :: stack).length + body ≤ MUSTACH_MAX_DEPTH) ∧
      stack.length + rest ≤ MUSTACH_MAX_DEPTH := by
  refine ⟨by omega, fun _ => ?_, by omega⟩
  rw [List.length_cons]
  omega

/-- **What is not enabled is passed over.** -/
theorem leads_skip {last : Bool} {t : Template} (hwf : t.WellFormed last) {r : List UInt8}
    (hr : Follows last r) {stack : List Frame} (hdepth : stack.length + t.depth ≤ MUSTACH_MAX_DEPTH)
    (data : TemplateData) (file : List UInt8) :
    Leads templateItf (processing stack false data (t.written ++ r) file)
      (processing stack false data r file) := by
  induction t generalizing last r stack data file with
  | text s => exact process_text hwf hr ..
  | marker s blanks m rest ih =>
    obtain ⟨hs, hfit, hrest⟩ := hwf
    rw [Template.written, List.append_assoc, List.append_assoc]
    refine (process_text hs (follows_tag _ _) ..).trans ?_
    cases data with
    | mk context plug =>
      exact (leads_marker hfit ..).trans (ih hrest hr hdepth ..)
  | check s inverted test opening closing body rest ihbody ihrest =>
    obtain ⟨hs, ho, hc, hbody, hrest⟩ := hwf
    obtain ⟨hlt, hbodydepth, hrestdepth⟩ := depth_section hdepth
    simp only [Template.written, List.append_assoc]
    refine (process_text hs (follows_tag _ _) ..).trans ?_
    refine (leads_skipped test.name_first ho hc hlt ?_ ..).trans (ihrest hrest hr hrestdepth ..)
    exact fun frame data r file hr => ihbody hbody hr (hbodydepth frame) data file
  | plugs s opening closing body rest ihbody ihrest =>
    obtain ⟨hs, ho, hc, hbody, hrest⟩ := hwf
    obtain ⟨hlt, hbodydepth, hrestdepth⟩ := depth_section hdepth
    simp only [Template.written, List.append_assoc]
    refine (process_text hs (follows_tag _ _) ..).trans ?_
    refine (leads_skipped plugsName_first ho hc hlt ?_ ..).trans (ihrest hrest hr hrestdepth ..)
    exact fun frame data r file hr => ihbody hbody hr (hbodydepth frame) data file

/-! ## Pieces -/

/-- What is enabled of a template, without its sections. -/
inductive Piece
  | text (s : List UInt8)
  | marker (m : Marker)

def Piece.render (context : Context) (plug : Option Plug) : Piece → List UInt8
  | .text s => s
  | .marker m => m.render context plug

def renderPieces (context : Context) (plug : Option Plug) (pieces : List Piece) : List UInt8 :=
  pieces.flatMap (Piece.render context plug)

def Template.shown (context : Context) : Template → List Piece
  | .text s => [.text s]
  | .marker s _ m rest => .text s :: .marker m :: rest.shown context
  | .check s inverted test _ _ body rest =>
    .text s :: ((if test.holds context ≠ inverted then body.shown context else []) ++
      rest.shown context)
  | .plugs s _ _ _ rest => .text s :: rest.shown context

/-- A template inside the plugs, cut at the first end of a section of a granted permission: the
pieces before the section, in it and behind it. -/
structure Cut where
  before : List Piece
  inside : List Piece
  behind : List Piece

def Cut.prepend (pieces : List Piece) (cut : Cut) : Cut :=
  { cut with before := pieces ++ cut.before }

def Cut.append (cut : Cut) (pieces : List Piece) : Cut :=
  { cut with behind := cut.behind ++ pieces }

def Template.cut (context : Context) : Template → Option Cut
  | .text _ => none
  | .marker s _ m rest => (rest.cut context).map (.prepend [.text s, .marker m])
  | .check s inverted test _ _ body rest =>
    if test.holds context then
      -- the body of an inverted section is not enabled, but the section is left
      if inverted then some ⟨[.text s], [], rest.shown context⟩
      else
        match body.cut context with
        | none => some ⟨[.text s], body.shown context, rest.shown context⟩
        | some cut => some ((cut.append (rest.shown context)).prepend [.text s])
    else if inverted then
      match body.cut context with
      | none => (rest.cut context).map (.prepend (.text s :: body.shown context))
      | some cut => some ((cut.append (rest.shown context)).prepend [.text s])
    else (rest.cut context).map (.prepend [.text s])
  | .plugs s _ _ _ rest => (rest.cut context).map (.prepend [.text s])

/-- No pieces. -/
@[simp] theorem renderPieces_nil (plug : Option Plug) : renderPieces context plug [] = [] := rfl

/-- One piece after the other. -/
@[simp] theorem renderPieces_cons (plug : Option Plug) (piece : Piece) (pieces : List Piece) :
    renderPieces context plug (piece :: pieces) =
      piece.render context plug ++ renderPieces context plug pieces := rfl

/-- Pieces after pieces. -/
@[simp] theorem renderPieces_append (plug : Option Plug) (pieces pieces' : List Piece) :
    renderPieces context plug (pieces ++ pieces') =
      renderPieces context plug pieces ++ renderPieces context plug pieces' :=
  List.flatMap_append

/-- Inside the plugs, the rendering is that of the pieces. -/
theorem Template.render_inside {t : Template} (h : t.Inside) (plug : Option Plug) :
    t.render context plug = renderPieces context plug (t.shown context) := by
  induction t with
  | text s => simp [render, shown, Piece.render]
  | marker s blanks m rest ih => simp [render, shown, Piece.render, ih h]
  | check s inverted test opening closing body rest ihbody ihrest =>
    obtain ⟨-, hbody, hrest⟩ := h
    simp only [render, shown, renderPieces_cons, renderPieces_append, Piece.render, ihbody hbody,
      ihrest hrest]
    split <;> rfl
  | plugs => cases h

/-! ## Runs inside the plugs -/

/-- A section that is done at most once: it is inverted, or its permission is not granted. Behind it
no plug is left if the permission is granted. -/
theorem leads_check_once {test : Check} {opening closing : Blanks} (ho : opening.Fit test.name)
    (hc : closing.Fit test.name) {stack : List Frame} (hdepth : stack.length < MUSTACH_MAX_DEPTH)
    {plug plug' : List Plug} (htest : plug = [] ∨ ∃ p, test = .permission p)
    {body r file file' : List UInt8} {inverted : Bool}
    (honce : ((test.holds context != inverted) && test.holds context) = false)
    (hbody : ∀ frame : Frame, ∀ r, Follows false r → Leads templateItf
      (processing (frame :: stack) (test.holds context != inverted) ⟨context, plug⟩ (body ++ r)
        file)
      (processing (frame :: stack) (test.holds context != inverted) ⟨context, plug'⟩ r file')) :
    Leads templateItf
      (processing stack true ⟨context, plug⟩
        (beginText inverted opening test.name ++ (body ++ (endText closing test.name ++ r))) file)
      (processing stack true ⟨context, if test.holds context then [] else plug'⟩ r file') := by
  have henter := @enter_check context plug _ htest
  refine (leads_begin ho test.name_first hdepth henter inverted _ file).trans ?_
  refine (hbody _ _ (follows_tag _ _)).trans ?_
  generalize test.holds context = holds at honce
  cases holds with
  | true => exact leads_end hc test.name_first rfl honce stack _ r _
  | false => exact leads_end hc test.name_first rfl honce stack _ r _

/-- A section of a permission that is not granted: its body is enabled when it is inverted. -/
theorem leads_check_denied {test : Check} (hdenied : test.holds context = false)
    {opening closing : Blanks} (ho : opening.Fit test.name) (hc : closing.Fit test.name)
    {stack : List Frame} (hdepth : stack.length < MUSTACH_MAX_DEPTH) {plug plug' : List Plug}
    (htest : plug = [] ∨ ∃ p, test = .permission p) {body r file file' : List UInt8}
    {inverted : Bool}
    (hbody : ∀ frame : Frame, ∀ r, Follows false r →
      Leads templateItf (processing (frame :: stack) inverted ⟨context, plug⟩ (body ++ r) file)
        (processing (frame :: stack) inverted ⟨context, plug'⟩ r file')) :
    Leads templateItf
      (processing stack true ⟨context, plug⟩
        (beginText inverted opening test.name ++ (body ++ (endText closing test.name ++ r))) file)
      (processing stack true ⟨context, plug'⟩ r file') := by
  have honce := @leads_check_once context _ _ _ ho hc _ hdepth plug plug' htest body r file file'
    inverted
  rw [hdenied, Bool.false_bne] at honce
  exact honce (Bool.and_false _) hbody

/-- The inverted section of a permission that is granted: no plug is left. -/
theorem leads_check_inverted {test : Check} (hgranted : test.holds context = true)
    {opening closing : Blanks} (ho : opening.Fit test.name) (hc : closing.Fit test.name)
    {stack : List Frame} (hdepth : stack.length < MUSTACH_MAX_DEPTH) {plug : List Plug}
    (htest : plug = [] ∨ ∃ p, test = .permission p) {body : List UInt8}
    (hbody : ∀ frame : Frame, ∀ r file, Follows false r →
      Leads templateItf (processing (frame :: stack) false ⟨context, plug⟩ (body ++ r) file)
        (processing (frame :: stack) false ⟨context, plug⟩ r file))
    (r file : List UInt8) :
    Leads templateItf
      (processing stack true ⟨context, plug⟩
        (beginText true opening test.name ++ (body ++ (endText closing test.name ++ r))) file)
      (processing stack true ⟨context, []⟩ r file) := by
  have honce := @leads_check_once context _ _ _ ho hc _ hdepth plug plug htest body r file file true
  rw [hgranted] at honce
  exact honce rfl fun frame r hr => hbody frame r file hr

/-- A section that was entered is done for each plug that is left, and leaves none. -/
theorem leads_items {name : CStr}
    (hfirst : name.bytes ≠ [] ∧ ∀ c ∈ name.bytes.head?, isspace c = false) {closing : Blanks}
    (hc : closing.Fit name) {stack : List Frame} {body r : List UInt8} {out : Plug → List UInt8}
    (hbody : ∀ plug plugs file, Leads templateItf
      (processing (⟨name.bytes, body ++ (endText closing name ++ r), true, true⟩ :: stack) true
        ⟨context, plug :: plugs⟩ (body ++ (endText closing name ++ r)) file)
      (processing (⟨name.bytes, body ++ (endText closing name ++ r), true, true⟩ :: stack) true
        ⟨context, plug :: plugs⟩ (endText closing name ++ r) (file ++ out plug)))
    (plug : Plug) (plugs : List Plug) (file : List UInt8) :
    Leads templateItf
      (processing (⟨name.bytes, body ++ (endText closing name ++ r), true, true⟩ :: stack) true
        ⟨context, plug :: plugs⟩ (body ++ (endText closing name ++ r)) file)
      (processing stack true ⟨context, []⟩ r (file ++ (plug :: plugs).flatMap out)) := by
  induction plugs generalizing plug file with
  | nil =>
    have hnext := @leads_end_next context _ _ hc hfirst (body ++ (endText closing name ++ r)) stack
      [plug] r (file ++ out plug)
    simpa using (hbody plug [] file).trans hnext
  | cons plug' plugs ih =>
    have hnext := @leads_end_next context _ _ hc hfirst (body ++ (endText closing name ++ r)) stack
      (plug :: plug' :: plugs) r (file ++ out plug)
    rw [List.tail_cons, if_neg (List.cons_ne_nil _ _)] at hnext
    rw [List.flatMap_cons, ← List.append_assoc file]
    exact ((hbody plug _ file).trans hnext).trans (ih plug' _)

/-- A section that is entered is rendered once, and leaves without the plugs. -/
theorem leads_check_granted {test : Check} (hgranted : test.holds context = true)
    {opening closing : Blanks} (ho : opening.Fit test.name)
    {stack : List Frame} (hdepth : stack.length < MUSTACH_MAX_DEPTH) {plug : List Plug}
    (htest : plug = [] ∨ ∃ p, test = .permission p) {body out r : List UInt8} {file : List UInt8}
    (hbody : Leads templateItf
      (processing (⟨test.name.bytes, body ++ (endText closing test.name ++ r), true, true⟩ :: stack)
        true ⟨context, plug⟩ (body ++ (endText closing test.name ++ r)) file)
      (processing stack true ⟨context, []⟩ r (file ++ out))) :
    Leads templateItf
      (processing stack true ⟨context, plug⟩
        (beginText false opening test.name ++ (body ++ (endText closing test.name ++ r))) file)
      (processing stack true ⟨context, []⟩ r (file ++ out)) := by
  have henter := @enter_check context plug _ htest
  rw [hgranted] at henter
  exact (leads_begin ho test.name_first hdepth henter false _ file).trans hbody

/-- The end of a section that was entered, when no plug is left. -/
theorem leads_end_none {name : CStr}
    (hfirst : name.bytes ≠ [] ∧ ∀ c ∈ name.bytes.head?, isspace c = false) {closing : Blanks}
    (hc : closing.Fit name) (stack : List Frame) (again r file : List UInt8) :
    Leads templateItf
      (processing (⟨name.bytes, again, true, true⟩ :: stack) true ⟨context, []⟩
        (endText closing name ++ r) file)
      (processing stack true ⟨context, []⟩ r file) :=
  @leads_end_next context _ _ hc hfirst again stack [] r file

/-- **Without a plug, or without the end of a section of a granted permission**, the pieces are
written for the current plug. -/
theorem leads_shown {last : Bool} {t : Template} (hwf : t.WellFormed last) (hin : t.Inside)
    {r : List UInt8} (hr : Follows last r) {stack : List Frame}
    (hdepth : stack.length + t.depth ≤ MUSTACH_MAX_DEPTH) {plug : List Plug}
    (hcut : plug = [] ∨ t.cut context = none) (file : List UInt8) :
    Leads templateItf (processing stack true ⟨context, plug⟩ (t.written ++ r) file)
      (processing stack true ⟨context, plug⟩ r
        (file ++ renderPieces context plug.head? (t.shown context))) := by
  induction t generalizing last r stack file with
  | text s =>
    have hs := @process_text _ templateItf _ _ _ hwf hr stack true ⟨context, plug⟩ file
    simpa [Template.shown, Template.written, Piece.render] using hs
  | marker s blanks m rest ih =>
    obtain ⟨hs, hfit, hrest⟩ := hwf
    have hcut' : plug = [] ∨ rest.cut context = none := by simpa [Template.cut] using hcut
    rw [Template.written, List.append_assoc, List.append_assoc]
    refine (process_text hs (follows_tag _ _) ..).trans ?_
    refine (leads_marker hfit ..).trans ?_
    have hgo := ih hrest hin hr hdepth hcut' (file ++ s ++ m.render context plug.head?)
    simpa [Template.shown, Piece.render] using hgo
  | check s inverted test opening closing body rest ihbody ihrest =>
    obtain ⟨hs, ho, hc, hbody, hrest⟩ := hwf
    obtain ⟨htest, hinbody, hinrest⟩ := hin
    obtain ⟨hlt, hbodydepth, hrestdepth⟩ := depth_section hdepth
    simp only [Template.written, List.append_assoc]
    refine (process_text hs (follows_tag _ _) ..).trans ?_
    rw [if_pos rfl, Template.shown, renderPieces_cons, renderPieces_append, Piece.render]
    have hskip : ∀ frame : Frame, ∀ r file, Follows false r →
        Leads templateItf
          (processing (frame :: stack) false ⟨context, plug⟩ (body.written ++ r) file)
          (processing (frame :: stack) false ⟨context, plug⟩ r file) :=
      fun frame r file hr => leads_skip hbody hr (hbodydepth frame) ⟨context, plug⟩ file
    cases hholds : test.holds context with
    | false =>
      have hcutrest : plug = [] ∨ rest.cut context = none := by
        refine hcut.imp id fun h => ?_
        simp only [Template.cut, hholds, Bool.false_eq_true, if_false] at h
        split at h
        · split at h
          · simpa using h
          · cases h
        · simpa using h
      cases inverted with
      | false =>
        refine (leads_check_denied hholds ho hc hlt (.inr htest)
          fun frame r hr => hskip frame r _ hr).trans ?_
        simpa using ihrest hrest hinrest hr hrestdepth hcutrest (file ++ s)
      | true =>
        have hcutbody : plug = [] ∨ body.cut context = none := by
          refine hcut.imp id fun h => ?_
          simp only [Template.cut, hholds, Bool.false_eq_true, if_false, if_true] at h
          split at h
          · assumption
          · cases h
        refine (leads_check_denied hholds ho hc hlt (.inr htest) fun frame r hr =>
          ihbody hbody hinbody hr (hbodydepth frame) hcutbody _).trans ?_
        have hgo := ihrest hrest hinrest hr hrestdepth hcutrest
          (file ++ s ++ renderPieces context plug.head? (body.shown context))
        simpa using hgo
    | true =>
      have hplug : plug = [] := by
        refine hcut.resolve_right fun h => ?_
        simp only [Template.cut, hholds, if_true] at h
        split at h
        · cases h
        · split at h <;> cases h
      subst hplug
      cases inverted with
      | true =>
        refine (leads_check_inverted hholds ho hc hlt (.inl rfl) hskip ..).trans ?_
        simpa using ihrest hrest hinrest hr hrestdepth (.inl rfl) (file ++ s)
      | false =>
        let out := renderPieces context none (body.shown context)
        refine (@leads_check_granted _ _ hholds _ _ ho _ hlt _ (.inl rfl) _ out _ (file ++ s)
          ?_).trans ?_
        · exact (ihbody hbody hinbody (follows_tag _ _) (hbodydepth _) (.inl rfl) _).trans
            (leads_end_none test.name_first hc ..)
        · simpa [out] using ihrest hrest hinrest hr hrestdepth (.inl rfl) (file ++ s ++ out)
  | plugs => cases hin

/-- What is written of a template that is cut. -/
def Cut.output (context : Context) (plug : Plug) (plugs : List Plug) (cut : Cut) : List UInt8 :=
  renderPieces context (some plug) cut.before ++
    ((plug :: plugs).flatMap (fun p => renderPieces context (some p) cut.inside) ++
      renderPieces context none cut.behind)

/-- Pieces in front of what is cut are written for the first plug. -/
theorem Cut.output_prepend (plug : Plug) (plugs : List Plug) (pieces : List Piece) (cut : Cut) :
    (cut.prepend pieces).output context plug plugs =
      renderPieces context (some plug) pieces ++ cut.output context plug plugs := by
  simp [output, prepend]

/-- Pieces behind it are written once, without a plug. -/
theorem Cut.output_append (plug : Plug) (plugs : List Plug) (pieces : List Piece) (cut : Cut) :
    (cut.append pieces).output context plug plugs =
      cut.output context plug plugs ++ renderPieces context none pieces := by
  simp [output, append]

/-- **The first end of a section of a granted permission** among the plugs: its pieces are written
for each plug that is left, and those behind it without a plug. -/
theorem leads_cut {last : Bool} {t : Template} (hwf : t.WellFormed last) (hin : t.Inside)
    {r : List UInt8} (hr : Follows last r) {stack : List Frame}
    (hdepth : stack.length + t.depth ≤ MUSTACH_MAX_DEPTH) {cut : Cut}
    (hcut : t.cut context = some cut) (plug : Plug) (plugs : List Plug) (file : List UInt8) :
    Leads templateItf (processing stack true ⟨context, plug :: plugs⟩ (t.written ++ r) file)
      (processing stack true ⟨context, []⟩ r (file ++ cut.output context plug plugs)) := by
  induction t generalizing last r stack file cut with
  | text s => cases hcut
  | marker s blanks m rest ih =>
    obtain ⟨hs, hfit, hrest⟩ := hwf
    obtain ⟨cut', hcut', rfl⟩ := Option.map_eq_some_iff.1 hcut
    rw [Template.written, List.append_assoc, List.append_assoc]
    refine (process_text hs (follows_tag _ _) ..).trans ?_
    refine (leads_marker hfit ..).trans ?_
    have hgo := ih hrest hin hr hdepth hcut' (file ++ s ++ m.render context (some plug))
    simpa [Cut.output_prepend, Piece.render] using hgo
  | check s inverted test opening closing body rest ihbody ihrest =>
    obtain ⟨hs, ho, hc, hbody, hrest⟩ := hwf
    obtain ⟨htest, hinbody, hinrest⟩ := hin
    obtain ⟨hlt, hbodydepth, hrestdepth⟩ := depth_section hdepth
    have hshown : ∀ file, Leads templateItf
        (processing stack true ⟨context, []⟩ (rest.written ++ r) file)
        (processing stack true ⟨context, []⟩ r
          (file ++ renderPieces context none (rest.shown context))) :=
      leads_shown hrest hinrest hr hrestdepth (.inl rfl)
    have hskip : ∀ frame : Frame, ∀ r file, Follows false r →
        Leads templateItf
          (processing (frame :: stack) false ⟨context, plug :: plugs⟩ (body.written ++ r) file)
          (processing (frame :: stack) false ⟨context, plug :: plugs⟩ r file) :=
      fun frame r file hr => leads_skip hbody hr (hbodydepth frame) ⟨context, plug :: plugs⟩ file
    simp only [Template.written, List.append_assoc]
    refine (process_text hs (follows_tag _ _) ..).trans ?_
    rw [if_pos rfl]
    rw [Template.cut] at hcut
    cases hholds : test.holds context with
    | true =>
      rw [hholds, if_pos rfl] at hcut
      cases inverted with
      | true =>
        cases hcut
        refine (leads_check_inverted hholds ho hc hlt (.inr htest) hskip ..).trans ?_
        have hnothing : plugs.flatMap (fun _ => ([] : List UInt8)) = [] :=
          List.flatMap_eq_nil_iff.2 fun _ _ => rfl
        simpa [Cut.output, Piece.render, hnothing] using hshown (file ++ s)
      | false =>
        rw [if_neg Bool.false_ne_true] at hcut
        cases hcutbody : body.cut context with
        | none =>
          rw [hcutbody] at hcut
          cases hcut
          let out := fun p => renderPieces context (some p) (body.shown context)
          refine (leads_check_granted hholds ho hlt (.inr htest)
            (@leads_items _ _ test.name_first _ hc _ _ _ out ?_ plug plugs (file ++ s))).trans ?_
          · exact fun _ _ file =>
              leads_shown hbody hinbody (follows_tag _ _) (hbodydepth _) (.inr hcutbody) file
          · simpa [Cut.output, Piece.render, out] using
              hshown (file ++ s ++ (plug :: plugs).flatMap out)
        | some cut' =>
          rw [hcutbody] at hcut
          cases hcut
          let out := cut'.output context plug plugs
          refine (@leads_check_granted _ _ hholds _ closing ho _ hlt _ (.inr htest) _ out _
            (file ++ s) ?_).trans ?_
          · exact (ihbody hbody hinbody (follows_tag _ _) (hbodydepth _) hcutbody _).trans
              (leads_end_none test.name_first hc ..)
          · simpa [Cut.output_prepend, Cut.output_append, Piece.render, out] using
              hshown (file ++ s ++ out)
    | false =>
      rw [hholds, if_neg Bool.false_ne_true] at hcut
      cases inverted with
      | true =>
        rw [if_pos rfl] at hcut
        cases hcutbody : body.cut context with
        | none =>
          rw [hcutbody] at hcut
          obtain ⟨cut', hcut', rfl⟩ := Option.map_eq_some_iff.1 hcut
          refine (leads_check_denied hholds ho hc hlt (.inr htest) fun frame r hr =>
            leads_shown hbody hinbody hr (hbodydepth frame) (.inr hcutbody) _).trans ?_
          have hgo := ihrest hrest hinrest hr hrestdepth hcut'
            (file ++ s ++ renderPieces context (some plug) (body.shown context))
          simpa [Cut.output_prepend, Piece.render] using hgo
        | some cut' =>
          rw [hcutbody] at hcut
          cases hcut
          refine (leads_check_denied hholds ho hc hlt (.inr htest) fun frame r hr =>
            ihbody hbody hinbody hr (hbodydepth frame) hcutbody _).trans ?_
          simpa [Cut.output_prepend, Cut.output_append, Piece.render] using
            hshown (file ++ s ++ cut'.output context plug plugs)
      | false =>
        rw [if_neg Bool.false_ne_true] at hcut
        obtain ⟨cut', hcut', rfl⟩ := Option.map_eq_some_iff.1 hcut
        refine (leads_check_denied hholds ho hc hlt (.inr htest)
          fun frame r hr => hskip frame r _ hr).trans ?_
        have hgo := ihrest hrest hinrest hr hrestdepth hcut' (file ++ s)
        simpa [Cut.output_prepend, Piece.render] using hgo
  | plugs => cases hin

end SecLsmManager
