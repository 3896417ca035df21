import SecLsmManager.Context.Invariant
import SecLsmManager.Lib.Words
import SecLsmManager.Policy.Labels
import SecLsmManager.Templating.Pieces

/-!
# The Smack rules of an application

The template `template/smack/app-template.smack`, as the build leaves it, and what the rule file
that is made of it states, read as Smack reads it: a rule is a line of a subject, an object and an
access. Whatever the plugs and the permissions, these are the rules of the application
(`smack_template_states`): no id can add a word or a line to them.
-/

namespace SecLsmManager

variable {ω : Type*}

/-! ## Rules -/

structure SmackRule (ω : Type*) where
  subject : ω
  object : ω
  access : CStr
  deriving DecidableEq

/-- What an application may read of its own. -/
def ownSuffixes : List CStr := [.lit ":Lib", .lit ":Conf", .lit ":Http", .lit ":Data", .lit ":Exec"]

/-- The rules of every application, where `lit` and `app` make the words: of a text, and of `App:`
with the id and a text. -/
def ownRules (lit app : CStr → ω) : List (SmackRule ω) :=
  [⟨lit (.lit "System"), app .empty, .lit "rwxa"⟩,
    ⟨app .empty, lit (.lit "System:Shared"), .lit "rx"⟩,
    ⟨app .empty, lit (.lit "User:App-Shared"), .lit "rwx"⟩,
    ⟨app .empty, lit (.lit "System"), .lit "wx"⟩] ++
  (ownSuffixes.map fun suffix => ⟨app .empty, app suffix, .lit "rx"⟩) ++
  [⟨app .empty, lit (.lit "User:Home"), .lit "rx"⟩]

/-- What an application that exports plugs may do with them. -/
def plugRules (app : CStr → ω) : List (SmackRule ω) :=
  [⟨app .empty, app (.lit ":Plug"), .lit "rx"⟩]

/-- What is exported. -/
def exports : List CStr :=
  [.lit ":Plug", .lit ":Lib", .lit ":Exec", .lit ":Data", .lit ":Conf", .lit ":Http"]

/-- What an application that imports a plug may do. -/
def importRules (app : CStr → ω) (importer : ω) : List (SmackRule ω) :=
  exports.map fun suffix => ⟨importer, app suffix, .lit "rx"⟩

/-! ## The template -/

/-- The lines of rules, in pieces. -/
def SmackRule.pieces (rule : SmackRule (List Piece)) : List Piece :=
  rule.subject ++ .text [32] :: (rule.object ++ [.text (32 :: rule.access.bytes), .text [10]])

def appPieces (suffix : CStr) : List Piece :=
  [.text (CStr.lit "App:").bytes, .marker .id, .text suffix.bytes]

def litPieces (text : CStr) : List Piece := [.text text.bytes]

def importerPieces : List Piece := [.text (CStr.lit "App:").bytes, .marker .impid]

/-- The sections of the template. -/
def smackSections : Template :=
  .check [] false .hasPlugs .none .none
    (.ofPieces (.text [10] :: (plugRules appPieces).flatMap SmackRule.pieces) (.text []))
    (.plugs [10] .none .none
      (.ofPieces (.text [10] :: (importRules appPieces importerPieces).flatMap SmackRule.pieces)
        (.text []))
      (.text [10]))

def smackTemplate : Template :=
  .ofPieces ((ownRules litPieces appPieces).flatMap SmackRule.pieces) smackSections

/-- The lines of `app-template.smack`. -/
def smackTemplateLines : List CStr :=
  [.lit "System App:\x7b\x7bid\x7d\x7d rwxa",
    .lit "App:\x7b\x7bid\x7d\x7d System:Shared rx",
    .lit "App:\x7b\x7bid\x7d\x7d User:App-Shared rwx",
    .lit "App:\x7b\x7bid\x7d\x7d System wx",
    .lit "App:\x7b\x7bid\x7d\x7d App:\x7b\x7bid\x7d\x7d:Lib rx",
    .lit "App:\x7b\x7bid\x7d\x7d App:\x7b\x7bid\x7d\x7d:Conf rx",
    .lit "App:\x7b\x7bid\x7d\x7d App:\x7b\x7bid\x7d\x7d:Http rx",
    .lit "App:\x7b\x7bid\x7d\x7d App:\x7b\x7bid\x7d\x7d:Data rx",
    .lit "App:\x7b\x7bid\x7d\x7d App:\x7b\x7bid\x7d\x7d:Exec rx",
    .lit "App:\x7b\x7bid\x7d\x7d User:Home rx",
    .lit "\x7b\x7b#has-plugs\x7d\x7d",
    .lit "App:\x7b\x7bid\x7d\x7d App:\x7b\x7bid\x7d\x7d:Plug rx",
    .lit "\x7b\x7b/has-plugs\x7d\x7d",
    .lit "\x7b\x7b#plugs\x7d\x7d",
    .lit "App:\x7b\x7bimpid\x7d\x7d App:\x7b\x7bid\x7d\x7d:Plug rx",
    .lit "App:\x7b\x7bimpid\x7d\x7d App:\x7b\x7bid\x7d\x7d:Lib rx",
    .lit "App:\x7b\x7bimpid\x7d\x7d App:\x7b\x7bid\x7d\x7d:Exec rx",
    .lit "App:\x7b\x7bimpid\x7d\x7d App:\x7b\x7bid\x7d\x7d:Data rx",
    .lit "App:\x7b\x7bimpid\x7d\x7d App:\x7b\x7bid\x7d\x7d:Conf rx",
    .lit "App:\x7b\x7bimpid\x7d\x7d App:\x7b\x7bid\x7d\x7d:Http rx",
    .lit "\x7b\x7b/plugs\x7d\x7d"]

def smackTemplateText : List UInt8 := smackTemplateLines.flatMap fun line => line.bytes ++ [10]

/-- The pieces of the template, written out, are the shipped text. -/
theorem smackTemplate_written : smackTemplate.written = smackTemplateText := by decide +kernel

/-- The shipped template is plain: it has no brace outside its tags and no blank inside them. -/
theorem smackTemplate_plain : smackTemplate.plain = true := by decide +kernel

/-- The section of the plugs holds no other one of its kind. -/
theorem smackTemplate_shaped : smackTemplate.Shaped := by
  have hshaped : (Template.text []).Shaped := trivial
  have hinside : (Template.text []).Inside := trivial
  have hsections : smackSections.Shaped :=
    ⟨Template.shaped_ofPieces hshaped _, Template.inside_ofPieces hinside _, trivial⟩
  exact Template.shaped_ofPieces hsections _

/-! ## What a rule file states -/

/-- The blanks between the words of a rule. -/
def smackBlank (c : UInt8) : Bool := c == 32 || c == 9

/-- What a text states: the words of its lines. -/
def smackStated (text : List UInt8) : List (List (List UInt8)) :=
  Lib.wordLines (· == 10) smackBlank text

def SmackRule.words (rule : SmackRule CStr) : List (List UInt8) :=
  [rule.subject.bytes, rule.object.bytes, rule.access.bytes]

/-- A rule without its end of line. -/
def SmackRule.line (rule : SmackRule CStr) : List UInt8 :=
  rule.subject.bytes ++ 32 :: (rule.object.bytes ++ 32 :: rule.access.bytes)

def smackText (rules : List (SmackRule CStr)) : List UInt8 :=
  rules.flatMap fun rule => rule.line ++ [10]

/-- No byte of the text ends a word or a line. -/
def SmackPart (text : CStr) : Prop := ∀ c ∈ text.bytes, smackBlank c = false ∧ (c == 10) = false

instance (text : CStr) : Decidable (SmackPart text) := List.decidableBAll _ _

/-- A word of a rule. -/
def SmackWord (word : CStr) : Prop := word.bytes ≠ [] ∧ SmackPart word

instance (word : CStr) : Decidable (SmackWord word) := inferInstanceAs (Decidable (_ ∧ _))

structure SmackRule.Clean (rule : SmackRule CStr) : Prop where
  subject : SmackWord rule.subject
  object : SmackWord rule.object
  access : SmackWord rule.access

/-- Two parts of a word side by side are a part of a word. -/
theorem SmackPart.append {a b : CStr} (ha : SmackPart a) (hb : SmackPart b) :
    SmackPart (a ++ b) := by
  intro c hc
  rw [CStr.bytes_append] at hc
  exact (List.mem_append.1 hc).elim (ha c) (hb c)

/-- The bytes of an id are neither blanks nor ends of lines. -/
theorem ValidId.smackPart {id : CStr} (h : ValidId id) : SmackPart id := by
  intro c hc
  have hchar := h.chars c hc
  constructor
  · cases hblank : smackBlank c with
    | false => rfl
    | true =>
      obtain rfl | rfl : c = 32 ∨ c = 9 := by simpa [smackBlank] using hblank
      · revert hchar
        decide
      · revert hchar
        decide
  · refine beq_eq_false_iff_ne.2 ?_
    rintro rfl
    revert hchar
    decide

/-- The label of a valid id is one word of a rule, with each of the suffixes of the template. -/
theorem ValidId.smackWord {id suffix : CStr} (h : ValidId id) (hsuffix : SmackPart suffix) :
    SmackWord (appLabel id ++ suffix) := by
  have happ : SmackPart (.lit "App:") := by decide
  refine ⟨?_, (happ.append h.smackPart).append hsuffix⟩
  simp [appLabel, show (CStr.lit "App:").bytes = [65, 112, 112, 58] by decide]

/-- A clean rule is one line, and its words are those that were put in it. -/
theorem SmackRule.Clean.line {rule : SmackRule CStr} (h : rule.Clean) :
    (∀ c ∈ rule.line, (c == 10) = false) ∧ Lib.words smackBlank rule.line = rule.words ∧
      rule.words ≠ [] := by
  have hword : ∀ {word : CStr}, SmackWord word →
      Lib.words smackBlank word.bytes = [word.bytes] := fun hword =>
    Lib.words_eq_self (fun c hc => (hword.2 c hc).1) hword.1
  have hblank : smackBlank 32 = true := by decide
  refine ⟨fun c hc => ?_, ?_, List.cons_ne_nil _ _⟩
  · simp only [SmackRule.line, List.mem_append, List.mem_cons] at hc
    rcases hc with hc | rfl | hc | rfl | hc
    · exact (h.subject.2 c hc).2
    · rfl
    · exact (h.object.2 c hc).2
    · rfl
    · exact (h.access.2 c hc).2
  · rw [SmackRule.line, Lib.words_append_cons hblank, Lib.words_append_cons hblank,
      hword h.subject, hword h.object, hword h.access]
    rfl

/-- The text of clean rules states them. -/
theorem smackStated_text {rules : List (SmackRule CStr)} (h : ∀ rule ∈ rules, rule.Clean)
    (r : List UInt8) : smackStated (smackText rules ++ r) =
      rules.map SmackRule.words ++ smackStated r :=
  Lib.wordLines_flatMap (by rfl) (fun rule hrule => (h rule hrule).line) r

/-- An empty line states no rule. -/
theorem smackStated_eol (r : List UInt8) : smackStated (10 :: r) = smackStated r :=
  Lib.wordLines_cons_of_eol (by rfl) r

/-! ## The rules of a context -/

/-- The words with the id of a context. -/
def appWord (id suffix : CStr) : CStr := appLabel id ++ suffix

/-- The rules that the rule file of a context is to have. -/
def smackRules (id : CStr) (plugs : List Plug) : List (SmackRule CStr) :=
  ownRules (fun text => text) (appWord id) ++
    ((if plugs = [] then [] else plugRules (appWord id)) ++
      plugs.flatMap fun plug => importRules (appWord id) (appWord plug.impid .empty))

/-- The words and the accesses of the rules that are not of an application. -/
theorem smackWord_lit : ∀ word ∈ [CStr.lit "System", .lit "System:Shared", .lit "User:App-Shared",
    .lit "User:Home", .lit "rwxa", .lit "rwx", .lit "wx", .lit "rx"], SmackWord word := by
  decide +kernel

section
variable {id : CStr} (hid : ValidId id)
include hid

/-- The rules that every application gets are clean. -/
theorem ownRules_clean : ∀ rule ∈ ownRules (fun text => text) (appWord id), rule.Clean := by
  intro rule hrule
  have hpart : ∀ suffix ∈ ownSuffixes, SmackPart suffix := by decide
  simp only [ownRules, List.mem_append, List.mem_map, List.mem_cons, List.not_mem_nil,
    or_false] at hrule
  rcases hrule with ((rfl | rfl | rfl | rfl) | ⟨suffix, hsuffix, rfl⟩) | rfl <;>
    constructor <;> first
      | exact hid.smackWord (by decide)
      | exact hid.smackWord (hpart suffix hsuffix)
      | exact smackWord_lit _ (by simp)

/-- So are those of an application that exports plugs. -/
theorem plugRules_clean : ∀ rule ∈ plugRules (appWord id), rule.Clean := by
  intro rule hrule
  obtain rfl := List.mem_singleton.1 hrule
  exact ⟨hid.smackWord (by decide), hid.smackWord (by decide), smackWord_lit _ (by simp)⟩

/-- And those of each application it exports to, whose id is valid too. -/
theorem importRules_clean {impid : CStr} (himpid : ValidId impid) :
    ∀ rule ∈ importRules (appWord id) (appWord impid .empty), rule.Clean := by
  intro rule hrule
  obtain ⟨suffix, hsuffix, rfl⟩ := List.mem_map.1 hrule
  have hpart : ∀ suffix ∈ exports, SmackPart suffix := by decide
  exact ⟨himpid.smackWord (by decide), hid.smackWord (hpart suffix hsuffix),
    smackWord_lit _ (by simp)⟩

end

/-! ## The rendering of the template -/

section
variable {context : Context}

/-- A rule of the template renders to the rendered subject, object and access, a blank between them.
-/
theorem renderPieces_rule (plug : Option Plug) (rule : SmackRule (List Piece)) :
    renderPieces context plug rule.pieces = renderPieces context plug rule.subject ++
      32 :: (renderPieces context plug rule.object ++ 32 :: rule.access.bytes ++ [10]) := by
  simp [SmackRule.pieces, Piece.render]

/-- `App:{{id}}` and a suffix render to the label of the application. -/
theorem renderPieces_app (plug : Option Plug) (suffix : CStr) :
    renderPieces context plug (appPieces suffix) = (appWord context.idString suffix).bytes := by
  simp [appPieces, Piece.render, Marker.render, appWord, appLabel]

/-- A literal renders to itself. -/
theorem renderPieces_lit (plug : Option Plug) (text : CStr) :
    renderPieces context plug (litPieces text) = text.bytes := by
  simp [litPieces, Piece.render]

/-- `App:{{impid}}` renders to the label of the importer, inside the section of a plug. -/
theorem renderPieces_importer (plug : Plug) :
    renderPieces context (some plug) importerPieces = (appWord plug.impid .empty).bytes := by
  have hempty : CStr.empty.bytes = [] := rfl
  simp [importerPieces, Piece.render, Marker.render, appWord, appLabel, hempty]

/-- Rules are rendered as their lines, when their words are. -/
theorem renderPieces_rules (plug : Option Plug) {rules : List (SmackRule (List Piece))}
    {rules' : List (SmackRule CStr)} (h : List.Forall₂ (fun rule rule' =>
      renderPieces context plug rule.subject = rule'.subject.bytes ∧
      renderPieces context plug rule.object = rule'.object.bytes ∧
      rule.access = rule'.access) rules rules') :
    renderPieces context plug (rules.flatMap SmackRule.pieces) = smackText rules' := by
  induction h with
  | nil => rfl
  | cons hrule _ ih =>
    obtain ⟨hsubject, hobject, haccess⟩ := hrule
    simp only [List.flatMap_cons, renderPieces_append, ih, renderPieces_rule, hsubject, hobject,
      haccess, smackText, SmackRule.line, List.append_assoc, List.cons_append]

/-- The rules of every application render to its own, in the order of the template. -/
theorem renderPieces_ownRules (plug : Option Plug) :
    renderPieces context plug ((ownRules litPieces appPieces).flatMap SmackRule.pieces) =
      smackText (ownRules (fun text => text) (appWord context.idString)) :=
  renderPieces_rules plug (by simp [ownRules, ownSuffixes, renderPieces_app, renderPieces_lit])

/-- So do those of an application with plugs. -/
theorem renderPieces_plugRules (plug : Option Plug) :
    renderPieces context plug ((plugRules appPieces).flatMap SmackRule.pieces) =
      smackText (plugRules (appWord context.idString)) :=
  renderPieces_rules plug (by simp [plugRules, renderPieces_app])

/-- And those of one plug, for its importer. -/
theorem renderPieces_importRules (plug : Plug) :
    renderPieces context (some plug)
        ((importRules appPieces importerPieces).flatMap SmackRule.pieces) =
      smackText (importRules (appWord context.idString) (appWord plug.impid .empty)) :=
  renderPieces_rules (some plug)
    (by simp [importRules, exports, renderPieces_app, renderPieces_importer])

/-- The text that the shipped template renders to, for every context: the rules of the application,
and those of its plugs when it has any. -/
theorem smackTemplate_render : smackTemplate.render context none =
    smackText (ownRules (fun text => text) (appWord context.idString)) ++
      ((if context.plugset = [] then []
          else 10 :: smackText (plugRules (appWord context.idString))) ++
        10 :: (context.plugset.flatMap (fun plug =>
          10 :: smackText (importRules (appWord context.idString) (appWord plug.impid .empty))) ++
            [10])) := by
  simp only [smackTemplate, smackSections, Template.render_ofPieces, Template.render,
    renderPieces_cons, renderPieces_ownRules, renderPieces_plugRules, renderPieces_importRules,
    Piece.render, Check.holds, List.append_nil, List.nil_append, List.singleton_append]
  cases context.plugset <;> simp

/-- What the engine puts out for the shipped template is its rendering. -/
theorem smackTemplate_output :
    smackTemplate.output context = smackTemplate.render context none := by
  have hsafe : (Template.text []).CursorSafe context := trivial
  have hsections : smackSections.CursorSafe context := by
    refine ⟨fun _ => Template.cursorSafe_ofPieces hsafe _, fun cut plug plugs hcut => ?_, trivial⟩
    rw [Template.cut_ofPieces rfl] at hcut
    cases hcut
  exact (Template.output_spec smackTemplate_shaped).2.2 (Template.cursorSafe_ofPieces hsections _)

/-- The rendering states the rules of the context. -/
theorem smackTemplate_stated (hid : ValidId context.idString)
    (hplugs : ∀ plug ∈ context.plugset, ValidId plug.impid) :
    smackStated (smackTemplate.render context none) =
      (smackRules context.idString context.plugset).map SmackRule.words := by
  have hnil : smackStated [] = [] := rfl
  have hplug : ∀ r, smackStated ((if context.plugset = [] then []
      else 10 :: smackText (plugRules (appWord context.idString))) ++ r) =
      (if context.plugset = [] then [] else plugRules (appWord context.idString)).map
        SmackRule.words ++ smackStated r := by
    intro r
    split
    · rfl
    · rw [List.cons_append, smackStated_eol, smackStated_text (plugRules_clean hid)]
  have himports : ∀ plugs : List Plug, (∀ plug ∈ plugs, ValidId plug.impid) → ∀ r,
      smackStated (plugs.flatMap (fun plug => 10 :: smackText
        (importRules (appWord context.idString) (appWord plug.impid .empty))) ++ r) =
      (plugs.flatMap fun plug => importRules (appWord context.idString)
        (appWord plug.impid .empty)).map SmackRule.words ++ smackStated r := by
    intro plugs h r
    induction plugs with
    | nil => rfl
    | cons plug plugs ih =>
      obtain ⟨himpid, hrest⟩ := List.forall_mem_cons.1 h
      rw [List.flatMap_cons, List.flatMap_cons, List.cons_append, List.cons_append,
        smackStated_eol, List.append_assoc, smackStated_text (importRules_clean hid himpid),
        ih hrest, List.map_append, List.append_assoc]
  rw [smackTemplate_render, smackStated_text (ownRules_clean hid), hplug, smackStated_eol,
    himports _ hplugs, smackStated_eol, hnil, List.append_nil, smackRules, List.map_append,
    List.map_append]

end

/-! ## Main result -/

/-- `template_process` makes `text` of the template, wherever it is read and written. -/
def SmackRuleFile (context : Context) (text : List UInt8) : Prop :=
  ∀ (opens : CStr → Bool) (templatePath dest : CStr) (files : Files),
    files templatePath = some smackTemplateText → opens dest = true →
      ∃ fuel, ∀ n, Templating.templateProcess (n + fuel) opens templatePath dest context files =
        some (0, Function.update files dest (some text))

/-- `templateProcess` on the shipped template succeeds for every context with a valid id, and the
file it writes states the rules of the context. -/
theorem smackTemplate_process {context : Context} (hinv : context.Inv)
    (hid : ValidId context.idString) : ∃ text, SmackRuleFile context text ∧
      smackStated text = (smackRules context.idString context.plugset).map SmackRule.words := by
  refine ⟨smackTemplate.output context, fun opens templatePath dest files hread hopen => ?_, ?_⟩
  · rw [← smackTemplate_written] at hread
    exact templateProcess_output (Template.plain_wellFormed smackTemplate_plain true)
      smackTemplate_shaped (by decide +kernel) hread hopen
  · rw [smackTemplate_output]
    exact smackTemplate_stated hid fun plug hplug => (hinv.plugs_valid plug hplug).2.2

/-- **What an installation states.** Whatever the plugs, the permissions and the paths of a
context in order, with an id: the rule file that is made of the template states its rules, and no
other. -/
theorem smack_template_states {context : Context} (hinv : context.Inv)
    (hid : ValidId context.idString) : ∃ text, SmackRuleFile context text ∧
      smackStated text = (smackRules context.idString context.plugset).map SmackRule.words :=
  smackTemplate_process hinv hid

/-- The application `ab`, which exports a plug to `cd`. -/
def exporter : Context :=
  let directories : Answers := ⟨fun _ _ => .mode false true false, fun _ => true⟩
  (contextCreate fun _ => 0).run
    [.setId (.lit "ab"), .addPlug directories (.lit "/e") (.lit "cd") (.lit "/i")]

/-- The context of the example is one that the calls of a session build. -/
theorem exporter_inv : exporter.Inv := (Context.Inv.of_empty _ _).run _

/-- Its id is `ab`. -/
theorem exporter_id : exporter.idString = .lit "ab" := by decide +kernel

/-- The statement at an application that exports one plug. -/
theorem smack_template_states_exporter : ∃ text, SmackRuleFile exporter text ∧
    smackStated text = (smackRules exporter.idString exporter.plugset).map SmackRule.words :=
  smack_template_states exporter_inv (exporter_id ▸ validId_two.1)

end SecLsmManager
