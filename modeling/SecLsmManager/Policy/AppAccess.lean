import SecLsmManager.Policy.AppTemplate

/-!
# Who may access the files of an application

The labels that an installation gives to files and processes, in the rules that it states. With the
rules of an application alone, what it may read is told by the types of its paths, and what another
one may by the plugs that are exported to it (`smack_template_grants`).
-/

namespace SecLsmManager

/-! ## Words -/

/-- A suffix that an id cannot run into. -/
def Suffix (suffix : CStr) : Prop := ∀ c ∈ suffix.bytes.head?, c = 58

instance (suffix : CStr) : Decidable (Suffix suffix) := Option.decidableForallMem _

/-- The id of a word ends where its suffix begins, as no id has a colon. -/
theorem takeWhile_id {id suffix : CStr} (hid : ValidId id) (hs : Suffix suffix) :
    (id.bytes ++ suffix.bytes).takeWhile (· ≠ 58) = id.bytes := by
  have hcolon : ∀ c ∈ id.bytes, c ≠ 58 := by
    rintro c hc rfl
    have hchar := hid.chars 58 hc
    revert hchar
    decide
  rw [List.takeWhile_append_of_pos (by simpa using hcolon)]
  cases hbytes : suffix.bytes with
  | nil => simp
  | cons c bytes =>
    obtain rfl : c = 58 := hs c (by rw [hbytes]; rfl)
    simp

/-- The words of two ids are the same for the same id and suffix only. -/
theorem appWord_inj {a b suffix suffix' : CStr} (ha : ValidId a) (hb : ValidId b)
    (hs : Suffix suffix) (hs' : Suffix suffix') :
    appWord a suffix = appWord b suffix' ↔ a = b ∧ suffix = suffix' := by
  refine ⟨fun h => ?_, fun ⟨hid, hsuffix⟩ => hid ▸ hsuffix ▸ rfl⟩
  have hbytes : a.bytes ++ suffix.bytes = b.bytes ++ suffix'.bytes := by
    have hword := congrArg CStr.bytes h
    simp only [appWord, appLabel, CStr.bytes_append, List.append_assoc] at hword
    exact List.append_cancel_left hword
  have hid : a.bytes = b.bytes := by
    rw [← takeWhile_id ha hs, hbytes, takeWhile_id hb hs']
  rw [hid] at hbytes
  exact ⟨CStr.ext hid, CStr.ext (List.append_cancel_left hbytes)⟩

/-- No word of an application is one that does not begin with `A`. -/
theorem appWord_ne {id suffix word : CStr} (h : word.bytes.head? ≠ some 65) :
    appWord id suffix ≠ word := by
  rintro rfl
  apply h
  simp [appWord, appLabel, show (CStr.lit "App:").bytes = [65, 112, 112, 58] by decide]

/-- What the words of an application and the others are, in the rules of `a`. -/
structure AppWords (a b suffix : CStr) : Prop where
  subject : ∀ {c}, ValidId c → (appWord b .empty = appWord c .empty ↔ b = c)
  object : ∀ {suffix'}, Suffix suffix' → (appWord a suffix = appWord a suffix' ↔ suffix = suffix')

/-- For valid ids the words are told apart by the ids and the suffixes. -/
theorem AppWords.of_valid {a b suffix : CStr} (ha : ValidId a) (hb : ValidId b)
    (hs : Suffix suffix) : AppWords a b suffix where
  subject hc := (appWord_inj hb hc (by decide) (by decide)).trans (and_iff_left rfl)
  object hs' := (appWord_inj ha ha hs hs').trans (and_iff_right rfl)

/-- The rules of one application on the files of another one, `a`. -/
def Permitted (plugs : List Plug) (a b suffix : CStr) : Prop :=
  b = a ∧ (suffix ∈ ownSuffixes ∨ suffix = .lit ":Plug" ∧ plugs ≠ []) ∨
  (∃ plug ∈ plugs, plug.impid = b) ∧ suffix ∈ exports

section
variable {a b suffix access : CStr} (ha : ValidId a) (h : AppWords a b suffix)
include ha h

/-- The rules that every application gets give access to its own process only, on the suffixes of
its own. -/
theorem mem_ownRules_app :
    SmackRule.mk (appWord b .empty) (appWord a suffix) access ∈
        ownRules (fun text => text) (appWord a) ↔
      access = .lit "rx" ∧ b = a ∧ suffix ∈ ownSuffixes := by
  have hcolon : ∀ suffix' ∈ ownSuffixes, Suffix suffix' := by decide
  have hlit : ∀ word ∈ [CStr.lit "System", .lit "System:Shared", .lit "User:App-Shared",
      .lit "User:Home"], ∀ id suffix, appWord id suffix ≠ word := by
    have hhead : ∀ word ∈ [CStr.lit "System", .lit "System:Shared", .lit "User:App-Shared",
      .lit "User:Home"], word.bytes.head? ≠ some 65 := by decide +kernel
    exact fun word hword id suffix => appWord_ne (hhead word hword)
  constructor
  · intro hmem
    simp only [ownRules, List.mem_append, List.mem_map, List.mem_cons, List.not_mem_nil,
      or_false] at hmem
    rcases hmem with ((heq | heq | heq | heq) | ⟨suffix', hsuffix', heq⟩) | heq
    · exact absurd (congrArg SmackRule.subject heq) (hlit _ (by simp) _ _)
    · exact absurd (congrArg SmackRule.object heq) (hlit _ (by simp) _ _)
    · exact absurd (congrArg SmackRule.object heq) (hlit _ (by simp) _ _)
    · exact absurd (congrArg SmackRule.object heq) (hlit _ (by simp) _ _)
    · obtain ⟨hsubject, hobject, haccess⟩ := SmackRule.mk.inj heq
      obtain rfl := (h.object (hcolon _ hsuffix')).1 hobject.symm
      exact ⟨haccess.symm, (h.subject ha).1 hsubject.symm, hsuffix'⟩
    · exact absurd (congrArg SmackRule.object heq) (hlit _ (by simp) _ _)
  · rintro ⟨rfl, rfl, hsuffix⟩
    exact List.mem_append_left _ (List.mem_append_right _ (List.mem_map.2 ⟨suffix, hsuffix, rfl⟩))

/-- The rule of an application with plugs adds the suffix `:Plug`. -/
theorem mem_plugRules_app :
    SmackRule.mk (appWord b .empty) (appWord a suffix) access ∈ plugRules (appWord a) ↔
      access = .lit "rx" ∧ b = a ∧ suffix = .lit ":Plug" := by
  have hplug : Suffix (.lit ":Plug") := by decide
  rw [plugRules, List.mem_singleton, SmackRule.mk.injEq, h.subject ha, h.object hplug]
  constructor
  · rintro ⟨hb, hsuffix, haccess⟩
    exact ⟨haccess, hb, hsuffix⟩
  · rintro ⟨haccess, hb, hsuffix⟩
    exact ⟨hb, hsuffix, haccess⟩

omit ha in
/-- The rules of a plug give access to its importer, on what is exported. -/
theorem mem_importRules_app {c : CStr} (hc : ValidId c) :
    SmackRule.mk (appWord b .empty) (appWord a suffix) access ∈
        importRules (appWord a) (appWord c .empty) ↔
      access = .lit "rx" ∧ c = b ∧ suffix ∈ exports := by
  have hcolon : ∀ suffix' ∈ exports, Suffix suffix' := by decide
  constructor
  · intro hmem
    obtain ⟨suffix', hsuffix', heq⟩ := List.mem_map.1 hmem
    obtain ⟨hsubject, hobject, haccess⟩ := SmackRule.mk.inj heq
    obtain rfl := (h.object (hcolon _ hsuffix')).1 hobject.symm
    exact ⟨haccess.symm, ((h.subject hc).1 hsubject.symm).symm, hsuffix'⟩
  · rintro ⟨rfl, rfl, hsuffix⟩
    exact List.mem_map.2 ⟨suffix, hsuffix, rfl⟩

/-- All rules of an application on its files: those that `Permitted` says, for reading and
executing. -/
theorem mem_smackRules_app {plugs : List Plug} (hplugs : ∀ plug ∈ plugs, ValidId plug.impid) :
    SmackRule.mk (appWord b .empty) (appWord a suffix) access ∈ smackRules a plugs ↔
      access = .lit "rx" ∧ Permitted plugs a b suffix := by
  have himports : SmackRule.mk (appWord b .empty) (appWord a suffix) access ∈
      plugs.flatMap (fun plug => importRules (appWord a) (appWord plug.impid .empty)) ↔
      access = .lit "rx" ∧ (∃ plug ∈ plugs, plug.impid = b) ∧ suffix ∈ exports := by
    rw [List.mem_flatMap]
    constructor
    · rintro ⟨plug, hplug, hmem⟩
      obtain ⟨haccess, hb, hsuffix⟩ := (mem_importRules_app h (hplugs plug hplug)).1 hmem
      exact ⟨haccess, ⟨plug, hplug, hb⟩, hsuffix⟩
    · rintro ⟨haccess, ⟨plug, hplug, hb⟩, hsuffix⟩
      exact ⟨plug, hplug, (mem_importRules_app h (hplugs plug hplug)).2 ⟨haccess, hb, hsuffix⟩⟩
  have hplugged : SmackRule.mk (appWord b .empty) (appWord a suffix) access ∈
      (if plugs = [] then [] else plugRules (appWord a)) ↔
      access = .lit "rx" ∧ b = a ∧ suffix = .lit ":Plug" ∧ plugs ≠ [] := by
    split
    · rename_i hnone
      simp [hnone]
    · rename_i hsome
      rw [mem_plugRules_app ha h]
      simp [hsome]
  rw [smackRules, List.mem_append, List.mem_append, mem_ownRules_app ha h, hplugged, himports,
    Permitted, and_or_left, and_or_left, and_or_left, or_assoc]

end

/-- The files that are of no application. -/
theorem mem_smackRules_lit {a b word access : CStr} (ha : ValidId a) (hb : ValidId b)
    (hword : word.bytes.head? ≠ some 65) (plugs : List Plug) :
    SmackRule.mk (appWord b .empty) word access ∈ smackRules a plugs ↔
      b = a ∧ (word, access) ∈ [(CStr.lit "System:Shared", CStr.lit "rx"),
        (.lit "User:App-Shared", .lit "rwx"), (.lit "System", .lit "wx"),
        (.lit "User:Home", .lit "rx")] := by
  have hempty : Suffix .empty := by decide
  have hsubject : appWord b .empty = appWord a .empty ↔ b = a :=
    (appWord_inj hb ha hempty hempty).trans (and_iff_left rfl)
  have hsystem : ∀ id suffix, appWord id suffix ≠ .lit "System" := fun _ _ =>
    appWord_ne (by decide)
  have hne : ∀ {subject id suffix access' : CStr}, SmackRule.mk (appWord b .empty) word access ≠
      ⟨subject, appWord id suffix, access'⟩ := fun heq =>
    appWord_ne hword (congrArg SmackRule.object heq).symm
  have hown : ∀ {word' access' : CStr}, SmackRule.mk (appWord b .empty) word access =
      ⟨appWord a .empty, word', access'⟩ ↔ b = a ∧ word = word' ∧ access = access' := by
    intro word' access'
    rw [SmackRule.mk.injEq, hsubject]
  constructor
  · intro hmem
    simp only [smackRules, ownRules, List.mem_append, List.mem_map, List.mem_cons,
      List.not_mem_nil, or_false] at hmem
    rcases hmem with ((((heq | heq | heq | heq) | ⟨suffix, -, heq⟩) | heq) | hplug | himport)
    · exact absurd (congrArg SmackRule.subject heq) (hsystem _ _)
    · obtain ⟨hb, rfl, rfl⟩ := hown.1 heq
      exact ⟨hb, by simp⟩
    · obtain ⟨hb, rfl, rfl⟩ := hown.1 heq
      exact ⟨hb, by simp⟩
    · obtain ⟨hb, rfl, rfl⟩ := hown.1 heq
      exact ⟨hb, by simp⟩
    · exact absurd heq.symm hne
    · obtain ⟨hb, rfl, rfl⟩ := hown.1 heq
      exact ⟨hb, by simp⟩
    · split at hplug
      · cases hplug
      · exact absurd (List.mem_singleton.1 hplug) hne
    · obtain ⟨plug, -, hmem⟩ := List.mem_flatMap.1 himport
      obtain ⟨suffix, -, heq⟩ := List.mem_map.1 hmem
      exact absurd heq.symm hne
  · rintro ⟨rfl, hmem⟩
    refine List.mem_append_left _ ?_
    simp only [List.mem_cons, Prod.mk.injEq, List.not_mem_nil, or_false] at hmem
    rcases hmem with ⟨rfl, rfl⟩ | ⟨rfl, rfl⟩ | ⟨rfl, rfl⟩ | ⟨rfl, rfl⟩ <;> simp [ownRules]

/-- The suffix of the labels of a type, when it has labels for each application. -/
def typeSuffix : PathType → Option CStr
  | .typeConf => some (.lit ":Conf")
  | .typeData => some (.lit ":Data")
  | .typeExec => some (.lit ":Exec")
  | .typeHttp => some (.lit ":Http")
  | .typeIcon => some (.lit ":Icon")
  | .typeId => some .empty
  | .typeLib => some (.lit ":Lib")
  | .typePlug => some (.lit ":Plug")
  | .typeUnset | .typeDefault | .typePublic => none

/-- The label of the type `id` is the word of the application itself. -/
theorem label_typeId {id : CStr} (hid : ValidId id) :
    (initPathTypeDefinitions id .typeId).label = appWord id .empty := by
  rw [initPathTypeDefinitions_eq (Nat.le_succ_of_le hid.le_max)]
  exact CStr.ext (List.append_nil _).symm

/-- The label of a type with a suffix is the word with this suffix. -/
theorem label_suffix {id suffix : CStr} (hid : ValidId id) {type : PathType}
    (h : typeSuffix type = some suffix) :
    (initPathTypeDefinitions id type).label = appWord id suffix ∧ Suffix suffix := by
  have hsuffix : ∀ type, ∀ suffix ∈ typeSuffix type, Suffix suffix := by
    intro type
    cases type <;> decide
  refine ⟨?_, hsuffix type suffix h⟩
  cases type with
  | typeId =>
    cases h
    exact label_typeId hid
  | _ =>
    cases h
    try
      rw [initPathTypeDefinitions_eq (Nat.le_succ_of_le hid.le_max)]
      rfl

/-- The label of a type without a suffix. -/
theorem label_none {id : CStr} (hid : ValidId id) {type : PathType} (h : typeSuffix type = none) :
    (initPathTypeDefinitions id type).label =
      if type = .typePublic then .lit "System:Shared" else .empty := by
  rw [initPathTypeDefinitions_eq (Nat.le_succ_of_le hid.le_max)]
  cases type <;> first | rfl | cases h

/-- A process of `b` may read what has the label of the type for `a`. -/
def MayRead (plugs : List Plug) (a b : CStr) (type : PathType) : Prop :=
  b = a ∧ (type ∈ [.typeConf, .typeData, .typeExec, .typeHttp, .typeLib, .typePublic] ∨
    type = .typePlug ∧ plugs ≠ []) ∨
  (∃ plug ∈ plugs, plug.impid = b) ∧
    type ∈ [.typePlug, .typeLib, .typeExec, .typeData, .typeConf, .typeHttp]

/-- The rules on the labels of the types of two applications: what `MayRead` says, for reading and
executing. -/
theorem mem_smackRules_label {a b access : CStr} (ha : ValidId a) (hb : ValidId b)
    {plugs : List Plug} (hplugs : ∀ plug ∈ plugs, ValidId plug.impid) (type : PathType) :
    SmackRule.mk (initPathTypeDefinitions b .typeId).label (initPathTypeDefinitions a type).label
        access ∈ smackRules a plugs ↔ access = .lit "rx" ∧ MayRead plugs a b type := by
  rw [label_typeId hb]
  cases hsuffix : typeSuffix type with
  | some suffix =>
    obtain ⟨hlabel, hcolon⟩ := label_suffix ha hsuffix
    rw [hlabel, mem_smackRules_app ha (.of_valid ha hb hcolon) hplugs]
    refine and_congr_right fun _ => ?_
    have hown : suffix ∈ ownSuffixes ↔
        type ∈ [.typeConf, .typeData, .typeExec, .typeHttp, .typeLib, .typePublic] := by
      cases type <;> cases hsuffix <;> decide
    have hplug : suffix = .lit ":Plug" ↔ type = .typePlug := by
      cases type <;> cases hsuffix <;> decide
    have hexports : suffix ∈ exports ↔
        type ∈ [.typePlug, .typeLib, .typeExec, .typeData, .typeConf, .typeHttp] := by
      cases type <;> cases hsuffix <;> decide
    rw [Permitted, MayRead, hown, hplug, hexports]
  | none =>
    rw [label_none ha hsuffix]
    have hexports : type ∉ [PathType.typePlug, .typeLib, .typeExec, .typeData, .typeConf,
        .typeHttp] := by
      cases type <;> first | decide | cases hsuffix
    split
    · rename_i hpublic
      subst hpublic
      have hword : ∀ access : CStr, (CStr.lit "System:Shared", access) ∈
          [(CStr.lit "System:Shared", CStr.lit "rx"), (.lit "User:App-Shared", .lit "rwx"),
            (.lit "System", .lit "wx"), (.lit "User:Home", .lit "rx")] ↔ access = .lit "rx" := by
        have hothers : ∀ word ∈ [CStr.lit "User:App-Shared", .lit "System", .lit "User:Home"],
            CStr.lit "System:Shared" ≠ word := by decide +kernel
        simp only [List.forall_mem_cons, List.not_mem_nil, false_implies, implies_true,
          and_true] at hothers
        intro access
        simp [hothers]
      rw [mem_smackRules_lit ha hb (by decide), hword, MayRead]
      constructor
      · rintro ⟨hb, haccess⟩
        exact ⟨haccess, .inl ⟨hb, .inl (by decide)⟩⟩
      · rintro ⟨haccess, ⟨hb, -⟩ | ⟨-, hexported⟩⟩
        · exact ⟨hb, haccess⟩
        · exact absurd hexported hexports
    · rename_i hpublic
      have hword : ∀ p ∈ [(CStr.lit "System:Shared", CStr.lit "rx"),
          (.lit "User:App-Shared", .lit "rwx"), (.lit "System", .lit "wx"),
          (.lit "User:Home", .lit "rx")], CStr.empty ≠ p.1 := by decide +kernel
      have hown : type ∉ [PathType.typeConf, .typeData, .typeExec, .typeHttp, .typeLib,
          .typePublic] := by
        cases type <;> first | decide | exact absurd rfl hpublic | cases hsuffix
      rw [mem_smackRules_lit ha hb (by decide)]
      constructor
      · rintro ⟨-, hmem⟩
        exact absurd rfl (hword _ hmem)
      · rintro ⟨-, ⟨-, htype | ⟨rfl, -⟩⟩ | ⟨-, hexported⟩⟩
        · exact absurd htype hown
        · cases hsuffix
        · exact absurd hexported hexports

/-! ## Main result -/

/-- A rule is told by its three words. -/
theorem SmackRule.words_injective : Function.Injective SmackRule.words := by
  rintro ⟨subject, object, access⟩ ⟨subject', object', access'⟩ h
  simp only [SmackRule.words, List.cons.injEq, and_true] at h
  obtain ⟨hsubject, hobject, haccess⟩ := h
  rw [CStr.ext hsubject, CStr.ext hobject, CStr.ext haccess]

/-- **Who may read what**, by what an installation states: an application its own files but the
icons, and the plugs when it has some, and the applications that it exports plugs to what goes with
plugs, and no other application anything; all of them nothing but `rx`. -/
theorem smack_template_grants {context : Context} (hinv : context.Inv)
    (hid : ValidId context.idString) : ∃ text, SmackRuleFile context text ∧
      ∀ (b : CStr) (type : PathType) (access : CStr), ValidId b →
        ([(initPathTypeDefinitions b .typeId).label.bytes,
            (initPathTypeDefinitions context.idString type).label.bytes, access.bytes] ∈
          smackStated text ↔
        access = .lit "rx" ∧ MayRead context.plugset context.idString b type) := by
  have hplugs : ∀ plug ∈ context.plugset, ValidId plug.impid :=
    fun plug hplug => (hinv.plugs_valid plug hplug).2.2
  obtain ⟨text, hfile, hstated⟩ := smackTemplate_process hinv hid
  refine ⟨text, hfile, fun b type access hb => ?_⟩
  rw [hstated, ← mem_smackRules_label hid hb hplugs type]
  exact @List.mem_map_of_injective _ _ _ SmackRule.words_injective ⟨_, _, access⟩ _

/-- `cd` may read the data of `ab`, but not its icons. -/
theorem smack_template_grants_exporter : ∃ text, SmackRuleFile exporter text ∧
    [(initPathTypeDefinitions (.lit "cd") .typeId).label.bytes,
      (initPathTypeDefinitions exporter.idString .typeData).label.bytes,
      (CStr.lit "rx").bytes] ∈ smackStated text ∧
    [(initPathTypeDefinitions (.lit "cd") .typeId).label.bytes,
      (initPathTypeDefinitions exporter.idString .typeIcon).label.bytes,
      (CStr.lit "rx").bytes] ∉ smackStated text := by
  have hcd : ValidId (.lit "cd") := ⟨by decide, by decide, by decide +kernel⟩
  have hplug : ∃ plug ∈ exporter.plugset, plug.impid = .lit "cd" := by decide +kernel
  have himporter : (CStr.lit "cd") ≠ exporter.idString := by decide +kernel
  obtain ⟨text, hfile, hgrants⟩ :=
    smack_template_grants exporter_inv (exporter_id ▸ validId_two.1)
  refine ⟨text, hfile, ?_, fun hmem => ?_⟩
  · exact (hgrants (.lit "cd") .typeData (.lit "rx") hcd).2 ⟨rfl, .inr ⟨hplug, by decide⟩⟩
  · obtain ⟨-, ⟨hsame, -⟩ | ⟨-, htype⟩⟩ :=
      (hgrants (.lit "cd") .typeIcon (.lit "rx") hcd).1 hmem
    · exact himporter hsame
    · revert htype
      decide

end SecLsmManager
