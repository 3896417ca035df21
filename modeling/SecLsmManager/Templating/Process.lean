import SecLsmManager.Templating.Rendering

/-!
# What `template_process` writes

`template_process` writes its templates in any case (`Template.output`). What it writes is the
reference rendering exactly when no section of the plugs loses something by the cut of its body
(`Template.CursorSafe`): what is written is never longer than the reference, so that the two are
equal when they are so piece by piece.
-/

namespace SecLsmManager

variable {context : Context}

/-! ## The output -/

/-- What is written of a section of the plugs. -/
def plugsOutput (context : Context) (body : Template) : List UInt8 :=
  match context.plugset with
  | [] => []
  | plug :: plugs =>
    match body.cut context with
    | none => (plug :: plugs).flatMap fun p => body.render context (some p)
    | some cut => cut.output context plug plugs

def Template.output (context : Context) : Template → List UInt8
  | .text s => s
  | .marker s _ m rest => s ++ (m.render context none ++ rest.output context)
  | .check s inverted test _ _ body rest =>
    s ++ ((if test.holds context ≠ inverted then body.output context else []) ++
      rest.output context)
  | .plugs s _ _ body rest => s ++ (plugsOutput context body ++ rest.output context)

/-- The section of the plugs: its body for each of them, or, where a section inside moves the
cursor, what `plugsOutput` says. -/
theorem leads_plugs {opening closing : Blanks} (ho : opening.Fit plugsName)
    (hc : closing.Fit plugsName) {body : Template} (hwf : body.WellFormed false)
    (hin : body.Inside) {stack : List Frame}
    (hlt : stack.length < MUSTACH_MAX_DEPTH)
    (hdepth : ∀ frame : Frame, (frame :: stack).length + body.depth ≤ MUSTACH_MAX_DEPTH)
    (r file : List UInt8) :
    Leads templateItf
      (processing stack true ⟨context, []⟩ (beginText false opening plugsName ++
        (body.written ++ (endText closing plugsName ++ r))) file)
      (processing stack true ⟨context, []⟩ r (file ++ plugsOutput context body)) := by
  have henter := @enter_plugs context
  have hfollows : Follows false (endText closing plugsName ++ r) := follows_tag _ _
  have hbegin := leads_begin ho plugsName_first hlt henter false
    (body.written ++ (endText closing plugsName ++ r)) file
  refine hbegin.trans ?_
  rw [plugsOutput]
  cases hplugs : context.plugset with
  | nil =>
    refine (leads_skip hwf hfollows (hdepth _) ⟨context, []⟩ file).trans ?_
    rw [List.append_nil]
    exact leads_end hc plugsName_first rfl rfl stack _ r file
  | cons plug plugs =>
    cases hcut : body.cut context with
    | none =>
      refine leads_items plugsName_first hc ?_ plug plugs file
      intro plug plugs file
      rw [Template.render_inside hin]
      exact leads_shown hwf hin hfollows (hdepth _) (.inr hcut) file
    | some cut =>
      exact (leads_cut hwf hin hfollows (hdepth _) hcut plug plugs file).trans
        (leads_end_none plugsName_first hc ..)

/-- **The run of a template** where no plug is current. -/
theorem leads_output {last : Bool} {t : Template} (hwf : t.WellFormed last) (hshaped : t.Shaped)
    {r : List UInt8} (hr : Follows last r) {stack : List Frame}
    (hdepth : stack.length + t.depth ≤ MUSTACH_MAX_DEPTH) (file : List UInt8) :
    Leads templateItf (processing stack true ⟨context, []⟩ (t.written ++ r) file)
      (processing stack true ⟨context, []⟩ r (file ++ t.output context)) := by
  induction t generalizing last r stack file with
  | text s => exact process_text hwf hr stack true _ file
  | marker s blanks m rest ih =>
    obtain ⟨hs, hfit, hrest⟩ := hwf
    rw [Template.written, List.append_assoc, List.append_assoc]
    refine (process_text hs (follows_tag _ _) ..).trans ?_
    refine (leads_marker hfit ..).trans ?_
    simpa [Template.output] using
      ih hrest hshaped hr hdepth (file ++ s ++ m.render context none)
  | check s inverted test opening closing body rest ihbody ihrest =>
    obtain ⟨hs, ho, hc, hbody, hrest⟩ := hwf
    obtain ⟨hshapedbody, hshapedrest⟩ := hshaped
    obtain ⟨hlt, hbodydepth, hrestdepth⟩ := depth_section hdepth
    have hskip : ∀ frame : Frame, ∀ r file, Follows false r →
        Leads templateItf
          (processing (frame :: stack) false ⟨context, []⟩ (body.written ++ r) file)
          (processing (frame :: stack) false ⟨context, []⟩ r file) :=
      fun frame r file hr => leads_skip hbody hr (hbodydepth frame) ⟨context, []⟩ file
    have hgo := ihrest hrest hshapedrest hr hrestdepth
    simp only [Template.written, List.append_assoc]
    refine (process_text hs (follows_tag _ _) ..).trans ?_
    rw [if_pos rfl, Template.output]
    cases hholds : test.holds context with
    | true =>
      cases inverted with
      | true =>
        refine (leads_check_inverted hholds ho hc hlt (.inl rfl) hskip ..).trans ?_
        simpa using hgo (file ++ s)
      | false =>
        refine (@leads_check_granted _ _ hholds _ closing ho _ hlt _ (.inl rfl) _
          (body.output context) _ (file ++ s) ?_).trans ?_
        · exact (ihbody hbody hshapedbody (follows_tag _ _) (hbodydepth _) _).trans
            (leads_end_none test.name_first hc ..)
        · simpa using hgo (file ++ s ++ body.output context)
    | false =>
      cases inverted with
      | true =>
        refine (leads_check_denied hholds ho hc hlt (.inl rfl) fun frame r hr =>
          ihbody hbody hshapedbody hr (hbodydepth frame) _).trans ?_
        simpa using hgo (file ++ s ++ body.output context)
      | false =>
        refine (leads_check_denied hholds ho hc hlt (.inl rfl)
          fun frame r hr => hskip frame r _ hr).trans ?_
        simpa using hgo (file ++ s)
  | plugs s opening closing body rest _ ihrest =>
    obtain ⟨hs, ho, hc, hbody, hrest⟩ := hwf
    obtain ⟨hin, hshapedrest⟩ := hshaped
    obtain ⟨hlt, hbodydepth, hrestdepth⟩ := depth_section hdepth
    simp only [Template.written, List.append_assoc]
    refine (process_text hs (follows_tag _ _) ..).trans ?_
    refine (leads_plugs ho hc hbody hin hlt hbodydepth ..).trans ?_
    simpa [Template.output] using
      ihrest hrest hshapedrest hr hrestdepth (file ++ s ++ plugsOutput context body)

/-! ## What the cut of a section loses -/

/-- A marker that prints nothing for `plug`. -/
def Marker.Blank (context : Context) (plug : Plug) : Marker → Prop
  | .id | .idUnderscore | .underId => context.idString.bytes = []
  | .impid | .underImpid => plug.impid.bytes = []

def Piece.Blank (context : Context) (plug : Plug) : Piece → Prop
  | .text s => s = []
  | .marker m => m.Blank context plug

/-- A piece that is the same with `plug` and without a plug. -/
def Piece.Plugless (plug : Plug) : Piece → Prop
  | .marker .impid | .marker .underImpid => plug.impid.bytes = []
  | _ => True

/-- A cut that loses nothing: the pieces around the section, that are done for no plug but the
first, print nothing for the others, and those behind it do not depend on the first. -/
structure Cut.Harmless (context : Context) (plug : Plug) (plugs : List Plug) (cut : Cut) :
    Prop where
  before : ∀ p ∈ plugs, ∀ piece ∈ cut.before, piece.Blank context p
  behind : ∀ p ∈ plugs, ∀ piece ∈ cut.behind, piece.Blank context p
  plugless : ∀ piece ∈ cut.behind, piece.Plugless plug

/-- No section of the plugs that is enabled loses something. -/
def Template.CursorSafe (context : Context) : Template → Prop
  | .text _ => True
  | .marker _ _ _ rest => rest.CursorSafe context
  | .check _ inverted test _ _ body rest =>
    (test.holds context ≠ inverted → body.CursorSafe context) ∧ rest.CursorSafe context
  | .plugs _ _ _ body rest => (∀ cut plug plugs, body.cut context = some cut →
      context.plugset = plug :: plugs → cut.Harmless context plug plugs) ∧ rest.CursorSafe context

/-- A blank piece prints nothing for the plug. -/
theorem Piece.blank_iff {plug : Plug} {piece : Piece} :
    piece.Blank context plug ↔ piece.render context (some plug) = [] := by
  cases piece with
  | text s => exact Iff.rfl
  | marker m => cases m <;> simp [Blank, Marker.Blank, Piece.render, Marker.render]

/-- Blank pieces print nothing. -/
theorem renderPieces_blank {plug : Plug} {pieces : List Piece} :
    (∀ piece ∈ pieces, piece.Blank context plug) ↔
      renderPieces context (some plug) pieces = [] := by
  rw [renderPieces, List.flatMap_eq_nil_iff]
  exact forall₂_congr fun _ _ => Piece.blank_iff

/-- Two parts that are not longer than the parts of a whole make it when they are these parts. -/
theorem append_eq_iff {a b a' b' : List UInt8} (ha : a.length ≤ a'.length)
    (hb : b.length ≤ b'.length) : a ++ b = a' ++ b' ↔ a = a' ∧ b = b' := by
  constructor
  · intro h
    have hlen := congrArg List.length h
    simp only [List.length_append] at hlen
    exact List.append_inj h (by omega)
  · rintro ⟨rfl, rfl⟩
    rfl

/-- Without a plug, a piece is shorter unless it is the same. -/
theorem Piece.render_none_le (plug : Plug) (piece : Piece) :
    (piece.render context none).length ≤ (piece.render context (some plug)).length ∧
      ((piece.render context (some plug)).length ≤ (piece.render context none).length →
        piece.Plugless plug) ∧
      (piece.Plugless plug → piece.render context none = piece.render context (some plug)) := by
  cases piece with
  | text s => exact ⟨le_rfl, fun _ => trivial, fun _ => rfl⟩
  | marker m => cases m <;> simp [Piece.render, Marker.render, Plugless, eq_comm]

/-- The same for pieces. -/
theorem renderPieces_none_le (plug : Plug) (pieces : List Piece) :
    (renderPieces context none pieces).length ≤
        (renderPieces context (some plug) pieces).length ∧
      ((renderPieces context (some plug) pieces).length ≤
          (renderPieces context none pieces).length → ∀ piece ∈ pieces, piece.Plugless plug) ∧
      ((∀ piece ∈ pieces, piece.Plugless plug) →
        renderPieces context none pieces = renderPieces context (some plug) pieces) := by
  induction pieces with
  | nil => simp
  | cons piece pieces ih =>
    obtain ⟨hle, hlen, heq⟩ := @Piece.render_none_le context plug piece
    obtain ⟨hles, hlens, heqs⟩ := ih
    simp only [renderPieces_cons, List.length_append, List.forall_mem_cons]
    refine ⟨Nat.add_le_add hle hles, fun h => ⟨hlen (by omega), hlens (by omega)⟩, ?_⟩
    rintro ⟨h, hs⟩
    rw [heq h, heqs hs]

/-- The pieces of a section that is cut. -/
theorem Template.cut_shown {t : Template} {cut : Cut} (h : t.cut context = some cut) :
    t.shown context = cut.before ++ (cut.inside ++ cut.behind) := by
  induction t generalizing cut with
  | text s => cases h
  | marker s blanks m rest ih =>
    obtain ⟨cut', hcut', rfl⟩ := Option.map_eq_some_iff.1 h
    simp [shown, Cut.prepend, ih hcut']
  | check s inverted test opening closing body rest ihbody ihrest =>
    rw [shown]
    rw [Template.cut] at h
    cases hholds : test.holds context with
    | true =>
      rw [hholds, if_pos rfl] at h
      cases inverted with
      | true =>
        cases h
        simp
      | false =>
        rw [if_neg Bool.false_ne_true] at h
        cases hbody : body.cut context with
        | none =>
          rw [hbody] at h
          cases h
          simp
        | some cut' =>
          rw [hbody] at h
          cases h
          simp [Cut.prepend, Cut.append, ihbody hbody]
    | false =>
      rw [hholds, if_neg Bool.false_ne_true] at h
      cases inverted with
      | true =>
        rw [if_pos rfl] at h
        cases hbody : body.cut context with
        | none =>
          rw [hbody] at h
          obtain ⟨cut', hcut', rfl⟩ := Option.map_eq_some_iff.1 h
          simp [Cut.prepend, ihrest hcut']
        | some cut' =>
          rw [hbody] at h
          cases h
          simp [Cut.prepend, Cut.append, ihbody hbody]
      | false =>
        rw [if_neg Bool.false_ne_true] at h
        obtain ⟨cut', hcut', rfl⟩ := Option.map_eq_some_iff.1 h
        simp [Cut.prepend, ihrest hcut']
  | plugs s opening closing body rest _ ihrest =>
    obtain ⟨cut', hcut', rfl⟩ := Option.map_eq_some_iff.1 h
    simp [shown, Cut.prepend, ihrest hcut']

/-- Items between two parts are longer than the items, unless these parts are empty. -/
theorem flatMap_between_le (before inside behind : Plug → List UInt8) (plugs : List Plug) :
    (plugs.flatMap inside).length ≤
        (plugs.flatMap fun p => before p ++ (inside p ++ behind p)).length ∧
      ((plugs.flatMap fun p => before p ++ (inside p ++ behind p)).length ≤
          (plugs.flatMap inside).length → ∀ p ∈ plugs, before p = [] ∧ behind p = []) := by
  induction plugs with
  | nil => simp
  | cons plug plugs ih =>
    obtain ⟨hle, hlen⟩ := ih
    simp only [List.flatMap_cons, List.length_append, List.forall_mem_cons]
    refine ⟨by omega, fun h => ⟨⟨?_, ?_⟩, hlen (by omega)⟩⟩
    · exact List.eq_nil_of_length_eq_zero (by omega)
    · exact List.eq_nil_of_length_eq_zero (by omega)

/-- **What is written of a cut** is not longer than the reference, and is the reference exactly
when the cut loses nothing. -/
theorem Cut.output_spec (plug : Plug) (plugs : List Plug) (cut : Cut) :
    (cut.output context plug plugs).length ≤ ((plug :: plugs).flatMap fun p =>
        renderPieces context (some p) (cut.before ++ (cut.inside ++ cut.behind))).length ∧
      (cut.output context plug plugs = ((plug :: plugs).flatMap fun p =>
          renderPieces context (some p) (cut.before ++ (cut.inside ++ cut.behind))) ↔
        cut.Harmless context plug plugs) := by
  obtain ⟨hle, hlen, heq⟩ := @renderPieces_none_le context plug cut.behind
  obtain ⟨hitems, hempty⟩ := flatMap_between_le
    (fun p => renderPieces context (some p) cut.before)
    (fun p => renderPieces context (some p) cut.inside)
    (fun p => renderPieces context (some p) cut.behind) plugs
  simp only [output, renderPieces_append, List.flatMap_cons]
  refine ⟨by simp only [List.length_append]; omega, ?_, ?_⟩
  · intro h
    have hlength := congrArg List.length h
    simp only [List.length_append] at hlength
    have hnone := hempty (by omega)
    exact
      { before := fun p hp => renderPieces_blank.2 (hnone p hp).1
        behind := fun p hp => renderPieces_blank.2 (hnone p hp).2
        plugless := hlen (by omega) }
  · intro h
    have hinside : (plugs.flatMap fun p => renderPieces context (some p) cut.before ++
        (renderPieces context (some p) cut.inside ++ renderPieces context (some p) cut.behind)) =
        plugs.flatMap fun p => renderPieces context (some p) cut.inside := by
      refine List.flatMap_congr fun p hp => ?_
      rw [renderPieces_blank.1 (h.before p hp), renderPieces_blank.1 (h.behind p hp),
        List.nil_append, List.append_nil]
    rw [hinside, heq h.plugless]
    cases plugs with
    | nil => simp
    | cons plug' plugs =>
      -- with another plug, nothing stands behind the section
      have hbehind : renderPieces context (some plug) cut.behind = [] := by
        have hle' := (@renderPieces_none_le context plug' cut.behind).1
        rw [renderPieces_blank.1 (h.behind plug' List.mem_cons_self), heq h.plugless] at hle'
        exact List.eq_nil_of_length_eq_zero (Nat.le_zero.1 hle')
      simp [hbehind]

/-- No more than the rendering is put out for the plugs, and all of it exactly when the cut is
harmless. -/
theorem plugsOutput_spec {body : Template} (hin : body.Inside) :
    (plugsOutput context body).length ≤
        (context.plugset.flatMap fun p => body.render context (some p)).length ∧
      (plugsOutput context body = (context.plugset.flatMap fun p => body.render context (some p)) ↔
        ∀ cut plug plugs, body.cut context = some cut → context.plugset = plug :: plugs →
          cut.Harmless context plug plugs) := by
  rw [plugsOutput]
  cases hplugs : context.plugset with
  | nil => exact ⟨le_rfl, iff_of_true rfl nofun⟩
  | cons plug plugs =>
    cases hcut : body.cut context with
    | none => exact ⟨le_rfl, iff_of_true rfl nofun⟩
    | some cut =>
      simp only [Template.render_inside hin, Template.cut_shown hcut]
      obtain ⟨hle, hiff⟩ := @Cut.output_spec context plug plugs cut
      refine ⟨hle, hiff.trans ⟨?_, fun h => h cut plug plugs rfl rfl⟩⟩
      rintro h _ _ _ ⟨⟩ ⟨⟩
      exact h

/-- **What is written of a template** is not longer than the reference, and is the reference
exactly when no section of the plugs loses something. -/
theorem Template.output_spec {t : Template} (hshaped : t.Shaped) :
    (t.output context).length ≤ (t.render context none).length ∧
      (t.output context = t.render context none ↔ t.CursorSafe context) := by
  have hsame : ∀ (s : List UInt8) {a b : List UInt8}, s ++ a = s ++ b ↔ a = b :=
    fun s => ⟨List.append_cancel_left, congrArg (s ++ ·)⟩
  induction t with
  | text s => exact ⟨le_rfl, iff_of_true rfl trivial⟩
  | marker s blanks m rest ih =>
    obtain ⟨hle, hiff⟩ := ih hshaped
    simp only [output, render, List.length_append, hsame]
    exact ⟨by omega, hiff⟩
  | check s inverted test opening closing body rest ihbody ihrest =>
    obtain ⟨hlebody, hiffbody⟩ := ihbody hshaped.1
    obtain ⟨hlerest, hiffrest⟩ := ihrest hshaped.2
    simp only [output, render, List.length_append, hsame, CursorSafe]
    cases Decidable.em (test.holds context ≠ inverted) with
    | inl h =>
      simp only [if_pos h]
      refine ⟨by omega, (append_eq_iff hlebody hlerest).trans ?_⟩
      exact and_congr (hiffbody.trans ⟨fun hsafe _ => hsafe, fun hsafe => hsafe h⟩) hiffrest
    | inr h =>
      simp only [if_neg h, List.nil_append, List.length_nil]
      exact ⟨by omega, hiffrest.trans ⟨fun hsafe => ⟨fun h' => absurd h' h, hsafe⟩, And.right⟩⟩
  | plugs s opening closing body rest _ ihrest =>
    obtain ⟨hlebody, hiffbody⟩ := @plugsOutput_spec context body hshaped.1
    obtain ⟨hlerest, hiffrest⟩ := ihrest hshaped.2
    simp only [output, render, List.length_append, hsame, CursorSafe]
    exact ⟨by omega, (append_eq_iff hlebody hlerest).trans (and_congr hiffbody hiffrest)⟩

/-! ## Main result -/

/-- A tag has no NUL. -/
theorem nonul_tagText {mark : List UInt8} (hmark : 0 ∉ mark) {blanks : Blanks} {name : CStr}
    (h : blanks.Fit name) : 0 ∉ tagText (mark ++ blanks.around name) := by
  have hblank : isspace 0 = false := by decide
  have hleft : 0 ∉ blanks.left := fun hm => by simpa [hblank] using h.left 0 hm
  have hright : 0 ∉ blanks.right := fun hm => by simpa [hblank] using h.right 0 hm
  simp [tagText, Blanks.around, hmark, hleft, hright, name.nonul]

/-- Nor has a template. -/
theorem Template.written_nonul {last : Bool} {t : Template} (h : t.WellFormed last) :
    0 ∉ t.written := by
  have hbegin : ∀ (inverted : Bool) {blanks : Blanks} {name : CStr}, blanks.Fit name →
      0 ∉ beginText inverted blanks name := fun inverted _ _ hfit =>
    @nonul_tagText [if inverted then 94 else 35] (by cases inverted <;> decide) _ _ hfit
  have hend : ∀ {blanks : Blanks} {name : CStr}, blanks.Fit name → 0 ∉ endText blanks name :=
    fun hfit => @nonul_tagText [47] (by decide) _ _ hfit
  induction t generalizing last with
  | text s => exact h.nonul
  | marker s blanks m rest ih =>
    obtain ⟨hs, hfit, hrest⟩ := h
    have hname := @nonul_tagText [] List.not_mem_nil _ _ hfit
    rw [List.nil_append] at hname
    simp [written, hs.nonul, hname, ih hrest]
  | check s inverted test opening closing body rest ihbody ihrest =>
    obtain ⟨hs, ho, hc, hbody, hrest⟩ := h
    simp [written, hs.nonul, hbegin inverted ho, hend hc, ihbody hbody, ihrest hrest]
  | plugs s opening closing body rest ihbody ihrest =>
    obtain ⟨hs, ho, hc, hbody, hrest⟩ := h
    simp [written, hs.nonul, hbegin false ho, hend hc, ihbody hbody, ihrest hrest]

/-- The run of a whole template. -/
theorem templateProcess_output {t : Template} (hwf : t.WellFormed true) (hshaped : t.Shaped)
    (hdepth : t.depth ≤ MUSTACH_MAX_DEPTH) {opens : CStr → Bool} {templatePath dest : CStr}
    {files : Files} (hread : files templatePath = some t.written) (hopen : opens dest = true) :
    ∃ fuel, ∀ n, Templating.templateProcess (n + fuel) opens templatePath dest context files =
      some (0, Function.update files dest (some (t.output context))) := by
  have hleads := @leads_output context true t hwf hshaped [] rfl [] (by simpa using hdepth) []
  rw [List.append_nil, List.nil_append] at hleads
  obtain ⟨k, hk⟩ := hleads
  refine ⟨1 + k, fun n => ?_⟩
  have hrun : fmustach templateItf (n + (1 + k)) (.ofBytes t.written) ⟨context, []⟩ =
      some (0, ⟨context, []⟩, t.output context) := by
    have hbytes := CStr.ofBytes_of_nonul (Template.written_nonul hwf)
    have hstart := hk (n + 1)
    rw [Nat.add_assoc] at hstart
    rw [fmustach, hbytes]
    refine hstart.trans ?_
    simp [process, Mustach.turn, processing, strstr, iwrapEmit, Mustach.stop, MUSTACH_OK]
  simp only [Templating.templateProcess, hread, hopen, if_true, hrun]

/-- **The rendering of templates.** For every context and every balanced template, within the
limits of the engine, with only sections of permissions inside the sections of the plugs:
`template_process` ends, and it writes the reference rendering exactly when no section of the
plugs that is enabled is cut by the end of a section of a granted permission, or the cut loses
nothing. -/
theorem template_process_renders (context : Context) {t : Template} (hwf : t.WellFormed true)
    (hshaped : t.Shaped) (hdepth : t.depth ≤ MUSTACH_MAX_DEPTH) {opens : CStr → Bool}
    {templatePath dest : CStr} {files : Files} (hread : files templatePath = some t.written)
    (hopen : opens dest = true) :
    (∃ fuel out, ∀ n, Templating.templateProcess (n + fuel) opens templatePath dest context files =
      some (0, Function.update files dest (some out))) ∧
    ((∃ fuel, ∀ n, Templating.templateProcess (n + fuel) opens templatePath dest context files =
      some (0, Function.update files dest (some (t.render context none)))) ↔
        t.CursorSafe context) := by
  obtain ⟨fuel, hfuel⟩ := templateProcess_output hwf hshaped hdepth hread hopen
  refine ⟨⟨fuel, t.output context, hfuel⟩, ?_⟩
  rw [← (Template.output_spec hshaped).2]
  constructor
  · rintro ⟨fuel', hfuel'⟩
    have hboth := (hfuel fuel').symm.trans ((Nat.add_comm fuel fuel') ▸ hfuel' fuel)
    have hdest := congrFun (Prod.mk.inj (Option.some.inj hboth)).2 dest
    simpa using hdest
  · intro heq
    exact ⟨fuel, heq ▸ hfuel⟩

/-- No blanks around a name. -/
def Blanks.none : Blanks := ⟨[], []⟩

/-- The impid of each plug. -/
def impids : Template :=
  .plugs [] .none .none (.marker [] .none .impid (.text [32])) (.text [])

/-- The section of a permission, and then the impid, for each plug. -/
def grantedImpids : Template :=
  .plugs [] .none .none (.check [] false (.permission (.lit "ab")) .none .none (.text [97])
    (.marker [] .none .impid (.text [32]))) (.text [])

/-- A context with two plugs and a permission. -/
def twoPlugs : Context where
  id := fun _ => 0
  permissionSet := [.lit "ab"]
  pathSet := []
  plugset := [⟨.lit "/e", .lit "p1", .lit "/i"⟩, ⟨.lit "/e", .lit "p2", .lit "/j"⟩]
  needId := true
  errorFlag := false

/-- A name without blanks around it, that closes no tag. -/
theorem plainFit {name : CStr} (hshort : name.length ≤ MUSTACH_MAX_LENGTH)
    (hlast : ∀ c ∈ name.bytes.getLast?, isspace c = false)
    (hclosed : ¬ [125, 125] <:+: name.bytes ++ [125]) : Blanks.none.Fit name where
  left := nofun
  right := nofun
  short := hshort
  last := hlast
  unclosed := by simpa [Blanks.around, Blanks.none] using hclosed

/-- The first template of the examples is well formed. -/
theorem impids_wellFormed : impids.WellFormed true := by
  have hplugs : Blanks.none.Fit plugsName :=
    plainFit (by decide +kernel) (by decide +kernel) (by decide +kernel)
  have hempty : ∀ last, OpensNot last [] := fun last => ⟨nofun, by cases last <;> decide⟩
  have himpid : Blanks.none.Fit Marker.impid.name :=
    plainFit (by decide +kernel) (by decide +kernel) (by decide +kernel)
  exact ⟨hempty _, hplugs, hplugs, ⟨hempty _, himpid, ⟨by decide, by decide⟩⟩, hempty _⟩

/-- So is the second one. -/
theorem grantedImpids_wellFormed : grantedImpids.WellFormed true := by
  have hplugs : Blanks.none.Fit plugsName :=
    plainFit (by decide +kernel) (by decide +kernel) (by decide +kernel)
  have hempty : ∀ last, OpensNot last [] := fun last => ⟨nofun, by cases last <;> decide⟩
  have himpid : Blanks.none.Fit Marker.impid.name :=
    plainFit (by decide +kernel) (by decide +kernel) (by decide +kernel)
  have htest : Blanks.none.Fit (Check.permission (.lit "ab")).name :=
    plainFit (by decide +kernel) (by decide +kernel) (by decide +kernel)
  exact ⟨hempty _, hplugs, hplugs, ⟨hempty _, htest, htest, ⟨by decide, by decide⟩, hempty _,
    himpid, ⟨by decide, by decide⟩⟩, hempty _⟩

/-- The ids of the importers of two plugs are rendered. -/
theorem template_process_renders_impids : ∃ fuel, ∀ n,
    Templating.templateProcess (n + fuel) (fun _ => true) (.lit "t") (.lit "d") twoPlugs
      (fun _ => some impids.written) =
      some (0, Function.update (fun _ => some impids.written) (.lit "d")
        (some (impids.render twoPlugs none))) := by
  have hall := @template_process_renders twoPlugs impids impids_wellFormed ⟨trivial, trivial⟩
    (by decide) (fun _ => true) (.lit "t") (.lit "d") (fun _ => some impids.written) rfl rfl
  exact hall.2.2 ⟨nofun, trivial⟩

/-- The end of the section of the permission uses the plugs up: no impid is written. -/
theorem template_loses_impids :
    grantedImpids.WellFormed true ∧ grantedImpids.Shaped ∧
      grantedImpids.depth ≤ MUSTACH_MAX_DEPTH ∧
      (∃ fuel, ∀ n, Templating.templateProcess (n + fuel) (fun _ => true) (.lit "t") (.lit "d")
        twoPlugs (fun _ => some grantedImpids.written) =
        some (0, Function.update (fun _ => some grantedImpids.written) (.lit "d")
          (some [97, 97, 32]))) ∧
      grantedImpids.render twoPlugs none ≠ [97, 97, 32] := by
  have hshaped : grantedImpids.Shaped := ⟨⟨⟨_, rfl⟩, trivial, trivial⟩, trivial⟩
  have houtput : grantedImpids.output twoPlugs = [97, 97, 32] := by decide +kernel
  have hrun := @templateProcess_output twoPlugs grantedImpids grantedImpids_wellFormed hshaped
    (by decide) (fun _ => true) (.lit "t") (.lit "d") (fun _ => some grantedImpids.written) rfl rfl
  rw [houtput] at hrun
  exact ⟨grantedImpids_wellFormed, hshaped, by decide, hrun, by decide +kernel⟩

end SecLsmManager
