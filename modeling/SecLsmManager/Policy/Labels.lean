import Mathlib.Data.List.Forall2
import SecLsmManager.Policy.Labelling
import SecLsmManager.Policy.Selinux
import SecLsmManager.Templating.Rendering

/-!
# The labels of an application

Smack and SELinux each make the label of an application twice: for its processes and its
permissions, in a buffer that is cut at the size of an id, and for its files. The two agree for
ids that are short enough (`smack_labels_agree`, `selinux_labels_agree`). For SELinux a dash is an
underscore, so that two ids may have the same types (`selinux_types_distinct`).
-/

namespace SecLsmManager

open Lib

/-! ## Smack -/

/-- The label of an id, without a cut. -/
def appLabel (id : CStr) : CStr := .lit "App:" ++ id

/-- How much of an id fits in its label. -/
def smackLabelled : Nat := SEC_LSM_MANAGER_MAX_SIZE_ID - 4

/-- The label is that of the id, cut to the room of the buffer. -/
theorem smackGetLabel_eq (id : CStr) : smackGetLabel id = appLabel (id.take smackLabelled) := by
  have hstart : (CStr.lit "App:").bytes = [65, 112, 112, 58] := by decide
  apply CStr.ext
  simp [smackGetLabel, appLabel, CStr.snprintf, CStr.take, List.take_take, smackLabelled,
    SEC_LSM_MANAGER_MAX_SIZE_LABEL, SEC_LSM_MANAGER_MAX_SIZE_ID, hstart]

/-- Two ids have two labels. -/
theorem appLabel_injective : Function.Injective appLabel := by
  intro a b h
  have hbytes := congrArg CStr.bytes h
  exact CStr.ext (List.append_cancel_left hbytes)

/-- A cut leaves a string that is short enough. -/
theorem take_eq_iff {id : CStr} {n : Nat} : id.take n = id ↔ id.length ≤ n := by
  constructor
  · intro h
    have hbytes := congrArg CStr.length h
    simp only [CStr.take, CStr.length, List.length_take] at hbytes ⊢
    omega
  · intro h
    exact CStr.ext (List.take_of_length_le h)

/-- The label for the permissions and the links is `App:` and the id, and is the one of the files
of type `id`. -/
structure SmackLabelsAgree (id : CStr) : Prop where
  label : smackGetLabel id = appLabel id
  typeId : smackGetLabel id = (initPathTypeDefinitions id .typeId).label

/-- The label of the library and the one of the templates agree for the ids that fit. -/
theorem smackLabelsAgree_iff {id : CStr} (hid : ValidId id) :
    SmackLabelsAgree id ↔ id.length ≤ smackLabelled := by
  have htype : (initPathTypeDefinitions id .typeId).label = appLabel id := by
    rw [initPathTypeDefinitions_eq (Nat.le_succ_of_le hid.le_max)]
    rfl
  have hlabel : smackGetLabel id = appLabel id ↔ id.length ≤ smackLabelled := by
    rw [smackGetLabel_eq, appLabel_injective.eq_iff, take_eq_iff]
  exact ⟨fun h => hlabel.1 h.label, fun h => ⟨hlabel.2 h, (hlabel.2 h).trans htype.symm⟩⟩

/-- **The labels of Smack.** They agree for the ids that are not cut, and two ids have the same one
when they differ in what is cut only. -/
theorem smack_labels_agree {a b : CStr} (ha : ValidId a) (hb : ValidId b) :
    (SmackLabelsAgree a ↔ a.length ≤ smackLabelled) ∧
      (SmackLabelsAgree b ↔ b.length ≤ smackLabelled) ∧
      (smackGetLabel a = smackGetLabel b ↔ a.take smackLabelled = b.take smackLabelled) := by
  refine ⟨smackLabelsAgree_iff ha, smackLabelsAgree_iff hb, ?_⟩
  rw [smackGetLabel_eq, smackGetLabel_eq, appLabel_injective.eq_iff]

/-- The two ids of the example. -/
theorem validId_two : ValidId (.lit "ab") ∧ ValidId (.lit "ac") :=
  ⟨⟨by decide, by decide, by decide +kernel⟩, ⟨by decide, by decide, by decide +kernel⟩⟩

/-- They have labels of their own. -/
theorem smack_labels_agree_two :
    SmackLabelsAgree (.lit "ab") ∧ smackGetLabel (.lit "ab") ≠ smackGetLabel (.lit "ac") := by
  obtain ⟨hagree, -, hsame⟩ := smack_labels_agree validId_two.1 validId_two.2
  exact ⟨hagree.2 (by decide), fun h => absurd (hsame.1 h) (by decide)⟩

/-- An id of 197 bytes, that ends with `c`. -/
def cutId (c : UInt8) : CStr := .ofBytes (List.replicate 196 97 ++ [c])

/-- Two ids of 197 bytes have one label, and it is not the one of their files. -/
theorem smack_labels_cut :
    ValidId (cutId 98) ∧ ValidId (cutId 99) ∧ cutId 98 ≠ cutId 99 ∧
      smackGetLabel (cutId 98) = smackGetLabel (cutId 99) ∧ ¬ SmackLabelsAgree (cutId 98) := by
  refine ⟨⟨by decide +kernel, by decide +kernel, by decide +kernel⟩,
    ⟨by decide +kernel, by decide +kernel, by decide +kernel⟩, by decide +kernel,
    by decide +kernel, fun h => ?_⟩
  have hlabel : smackGetLabel (cutId 98) ≠ appLabel (cutId 98) := by decide +kernel
  exact hlabel h.label

/-! ## SELinux -/

/-- The id with its dashes turned into underscores. -/
def underscores (id : CStr) : CStr where
  bytes := id.bytes.map TemplateData.underscored
  nonul := by
    intro h
    obtain ⟨c, hc, hzero⟩ := List.mem_map.1 h
    have hnul : c = 0 := by
      unfold TemplateData.underscored at hzero
      split at hzero
      · cases hzero
      · exact hzero
    exact id.nonul (hnul ▸ hc)

/-- `selinux_get_label`; `mem` is what the memory of `_id_` holds. -/
def selinuxGetLabel (mem : Nat → UInt8) (appid : CStr) : CStr :=
  (CStr.snprintf SEC_LSM_MANAGER_MAX_SIZE_LABEL
    (.lit "system_u:system_r:" ++ trfid mem appid ++ .lit "_t:s0")).take
    SEC_LSM_MANAGER_MAX_SIZE_ID

/-- The types of paths that have a type of SELinux for each id, with its suffix. -/
def fileTypes : List (PathType × CStr) :=
  [(.typeConf, .lit "_conf_t"), (.typeData, .lit "_data_t"), (.typeExec, .lit "_exec_t"),
    (.typeHttp, .lit "_http_t"), (.typeIcon, .lit "_icon_t"), (.typeId, .lit "_t"),
    (.typeLib, .lit "_lib_t")]

/-- The declarations of types of `app-template.te`, behind the text `before`. -/
def teDeclarations (before : List UInt8) : List CStr → Template
  | [] => .text before
  | suffix :: suffixes =>
    .marker (before ++ (CStr.lit "type ").bytes) ⟨[], []⟩ .idUnderscore
      (teDeclarations (suffix.bytes ++ (CStr.lit ";\n").bytes) suffixes)

/-- The suffixes of `app-template.te`, in its order. -/
def teSuffixes : List CStr :=
  [.lit "_t", .lit "_exec_t", .lit "_lib_t", .lit "_conf_t", .lit "_icon_t", .lit "_data_t",
    .lit "_http_t"]

/-- The labels of SELinux are those that the rendered te file declares, whatever the memory
holds. -/
structure SelinuxLabelsAgree (id : CStr) : Prop where
  value : ∀ (data : TemplateData) escape, data.context.idString = id →
    data.put (.lit "id_underscore") escape = (0, (underscores id).bytes)
  declared : ∀ (context : Context) plug, context.idString = id →
    (teDeclarations [] teSuffixes).render context plug = teSuffixes.flatMap fun suffix =>
      (CStr.lit "type ").bytes ++ (underscores id ++ suffix).bytes ++ (CStr.lit ";\n").bytes
  suffixes : (fileTypes.map Prod.snd).Perm teSuffixes
  domain : ∀ mem, selinuxGetLabel mem id =
    .lit "system_u:system_r:" ++ underscores id ++ .lit "_t:s0"
  types : ∀ mem labelMem, ∀ p ∈ fileTypes,
    Selinux.initPathTypeDefinitions labelMem (trfid mem id) p.1 =
      .lit "system_u:object_r:" ++ (underscores id ++ p.2)

/-! ### The translation of the id -/

/-- No character becomes a NUL. -/
theorem underscored_ne_zero {c : UInt8} (h : c ≠ 0) : TemplateData.underscored c ≠ 0 := by
  unfold TemplateData.underscored
  split
  · decide
  · exact h

/-- The loop copies four bytes at most, with the NUL. -/
theorem trfidLoop_eq (l : List UInt8) (hl : 0 ∉ l) {idx : Nat} (hidx : idx < 4)
    (array : Nat → UInt8) : trfidLoop (l ++ [0]) idx array =
      writeCells array idx (((l ++ [0]).take (4 - idx)).map TemplateData.underscored) := by
  induction l generalizing idx array with
  | nil =>
    obtain ⟨n, hn⟩ : ∃ n, 4 - idx = n + 1 := ⟨3 - idx, by omega⟩
    simp [trfidLoop, hn, writeCells_cons, TemplateData.underscored]
  | cons c l ih =>
    obtain ⟨n, hn⟩ : ∃ n, 4 - idx = n + 1 := ⟨3 - idx, by omega⟩
    obtain ⟨hc, hrest⟩ := not_or.1 (List.mem_cons.not.1 hl)
    have hne : c ≠ 0 := fun h => hc h.symm
    simp only [List.cons_append, trfidLoop, hn, List.take_succ_cons, List.map_cons,
      writeCells_cons, TemplateData.underscored]
    by_cases hlast : idx + 1 < 4
    · rw [if_pos ⟨hne, hlast⟩, ih hrest hlast, show 4 - (idx + 1) = n by omega]
    · rw [if_neg fun h => hlast h.2, show n = 0 by omega]
      simp

/-- An id of at most three bytes is translated. -/
theorem trfid_short {id : CStr} (h : id.length ≤ 3) (mem : Nat → UInt8) :
    trfid mem id = underscores id := by
  have hlength : (id.bytes ++ [0]).length ≤ 4 := by
    rw [List.length_append]
    exact Nat.succ_le_succ h
  have hloop := trfidLoop_eq id.bytes id.nonul (Nat.zero_lt_succ 3) mem
  rw [Nat.sub_zero, List.take_of_length_le hlength, List.map_append] at hloop
  have hlen : (id.bytes.map TemplateData.underscored ++
      [0].map TemplateData.underscored).length = id.length + 1 := by
    rw [List.length_append, List.length_map]
    rfl
  have hcells : cells (Function.update (trfidLoop (id.bytes ++ [0]) 0 mem)
      SEC_LSM_MANAGER_MAX_SIZE_ID 0) 0 (id.length + 1) = (underscores id).bytes ++ [0] := by
    have hsize : id.length + 1 ≤ SEC_LSM_MANAGER_MAX_SIZE_ID := by
      rw [SEC_LSM_MANAGER_MAX_SIZE_ID]
      omega
    rw [cells_update_outside _ _ (.inr (by omega)), hloop, ← hlen]
    exact cells_writeCells mem 0 _
  obtain ⟨k, hk⟩ : ∃ k, SEC_LSM_MANAGER_MAX_SIZE_ID + 1 = id.length + 1 + k :=
    ⟨SEC_LSM_MANAGER_MAX_SIZE_ID - id.length, by rw [SEC_LSM_MANAGER_MAX_SIZE_ID]; omega⟩
  rw [trfid, hk, cells_append, hcells, List.append_assoc, List.singleton_append,
    CStr.ofBytes_append_nul, CStr.ofBytes_bytes]

/-- The length of a translation goes on in the memory after the fourth byte. -/
theorem trfid_long {id : CStr} (h : 4 ≤ id.length) {mem : Nat → UInt8} {n : Nat} (hfour : 4 ≤ n)
    (hn : n ≤ SEC_LSM_MANAGER_MAX_SIZE_ID) (hstop : n = SEC_LSM_MANAGER_MAX_SIZE_ID ∨ mem n = 0)
    (hmem : ∀ k, 4 ≤ k → k < n → mem k ≠ 0) : (trfid mem id).length = n := by
  have hloop := trfidLoop_eq id.bytes id.nonul (Nat.zero_lt_succ 3) mem
  rw [Nat.sub_zero, List.take_append_of_le_length h] at hloop
  have hfirst : ((id.bytes.take 4).map TemplateData.underscored).length = 4 := by
    rw [List.length_map, List.length_take]
    exact Nat.min_eq_left h
  have hend : Function.update (trfidLoop (id.bytes ++ [0]) 0 mem)
      SEC_LSM_MANAGER_MAX_SIZE_ID 0 n = 0 := by
    obtain rfl | hzero := hstop
    · exact Function.update_self ..
    · rw [Function.update_apply]
      split
      · rfl
      · rw [hloop, writeCells_of_ge _ _ (by omega), hzero]
  have hnonul : 0 ∉ cells (Function.update (trfidLoop (id.bytes ++ [0]) 0 mem)
      SEC_LSM_MANAGER_MAX_SIZE_ID 0) 0 n := by
    rw [cells_update_outside _ _ (.inr (by omega)), hloop]
    intro hzero
    obtain ⟨k, hk, hcell⟩ := List.getElem_of_mem hzero
    rw [cells_length] at hk
    rw [getElem_cells, Nat.zero_add] at hcell
    by_cases hlast : k < 4
    · have hwritten := writeCells_getElem mem 0 _ (hfirst ▸ hlast)
      rw [Nat.zero_add, hcell, List.getElem_map, List.getElem_take] at hwritten
      refine underscored_ne_zero (fun h => id.nonul ?_) hwritten.symm
      exact h ▸ List.getElem_mem _
    · rw [writeCells_of_ge _ _ (by omega)] at hcell
      exact hmem k (Nat.not_lt.1 hlast) hk hcell
  rw [trfid, CStr.length, CStr.bytes_ofBytes_cells (Nat.lt_succ_of_le hn) hend hnonul, cells_length]

/-! ### The labels -/

/-- The label of a type is not cut. -/
theorem typeLabel_eq {id : CStr} (hid : id.length ≤ Context.idSize) (mem : PathType → CStr) :
    ∀ p ∈ fileTypes, Selinux.initPathTypeDefinitions mem id p.1 =
      .lit "system_u:object_r:" ++ (id ++ p.2) := by
  have hstart : (CStr.lit "system_u:object_r:").length = 18 := by decide
  have hsuffixes : ∀ p ∈ fileTypes, p.2.length ≤ 7 := by decide
  have hsize : Context.idSize = 201 ∧ SEC_LSM_MANAGER_MAX_SIZE_LABEL = 255 := ⟨rfl, rfl⟩
  have hlabel : ∀ p ∈ fileTypes, Selinux.initPathTypeDefinitions mem id p.1 =
      Selinux.initPathTypeDefinitions.label (id ++ p.2) := by
    simp only [fileTypes, List.forall_mem_cons, Selinux.initPathTypeDefinitions, true_and]
    exact fun _ h => by cases h
  intro p hp
  have hsuffix := hsuffixes p hp
  rw [hlabel p hp]
  refine CStr.snprintf_of_lt ?_
  simp only [CStr.length_append]
  omega

/-- The label of the processes is not cut for an id of at most three bytes. -/
theorem selinuxGetLabel_short {id : CStr} (h : id.length ≤ 3) (mem : Nat → UInt8) :
    selinuxGetLabel mem id = .lit "system_u:system_r:" ++ underscores id ++ .lit "_t:s0" := by
  have hstart : (CStr.lit "system_u:system_r:").length = 18 := by decide
  have hend : (CStr.lit "_t:s0").length = 5 := by decide
  have hlen : (underscores id).length = id.length := List.length_map _
  have hle : (CStr.lit "system_u:system_r:" ++ underscores id ++ CStr.lit "_t:s0").length ≤ 26 := by
    simp only [CStr.length_append]
    omega
  rw [selinuxGetLabel, trfid_short h, CStr.snprintf_of_lt (Nat.lt_of_le_of_lt hle (by decide)),
    take_eq_iff]
  exact Nat.le_trans hle (by decide)

/-- The marker of the templates for the id with underscores. -/
theorem put_id_underscore (data : TemplateData) (escape : Bool) :
    data.put (.lit "id_underscore") escape = (0, (underscores data.context.idString).bytes) := by
  have hname : CStr.lit "id_underscore" ≠ CStr.lit "id" := by decide
  simp [TemplateData.put, TemplateData.text, hname, underscores]

/-- The types that the template declares, by their suffixes. -/
theorem teDeclarations_render (context : Context) (plug : Option Plug) (before : List UInt8)
    (suffixes : List CStr) : (teDeclarations before suffixes).render context plug =
      before ++ suffixes.flatMap fun suffix => (CStr.lit "type ").bytes ++
        (underscores context.idString ++ suffix).bytes ++ (CStr.lit ";\n").bytes := by
  induction suffixes generalizing before with
  | nil => simp [teDeclarations, Template.render]
  | cons suffix suffixes ih =>
    simp only [teDeclarations, Template.render, Marker.render, ih, List.flatMap_cons]
    simp [underscores]

/-- **The labels of SELinux** are those of the generated policy for the ids of at most three bytes
only. -/
theorem selinux_labels_agree {id : CStr} (hid : ValidId id) :
    SelinuxLabelsAgree id ↔ id.length ≤ 3 := by
  constructor
  · intro h
    by_contra hlong
    have hfour : 4 ≤ id.length := by omega
    -- the label of a process that finds zeros, and the one of a process that finds letters
    have hzeros : (trfid (fun _ => 0) id).length = 4 :=
      trfid_long hfour (Nat.le_refl 4) (by decide) (.inr rfl) fun k hk hlt => by omega
    have hletters : (trfid (fun _ => 120) id).length = SEC_LSM_MANAGER_MAX_SIZE_ID :=
      trfid_long hfour (by decide) (Nat.le_refl _) (.inl rfl) fun k _ _ => by decide
    have hmem : (PathType.typeId, CStr.lit "_t") ∈ fileTypes := by decide
    have htypes := (h.types (fun _ => 0) (fun _ => .empty) _ hmem).trans
      (h.types (fun _ => 120) (fun _ => .empty) _ hmem).symm
    rw [typeLabel_eq (by rw [hzeros]; decide) _ _ hmem,
      typeLabel_eq (by rw [hletters]; decide) _ _ hmem] at htypes
    have hlength := congrArg CStr.length htypes
    simp only [CStr.length_append, hzeros, hletters, SEC_LSM_MANAGER_MAX_SIZE_ID] at hlength
    omega
  · intro h
    have hlen : (underscores id).length = id.length := List.length_map _
    refine ⟨?_, ?_, by decide, selinuxGetLabel_short h, ?_⟩
    · rintro data escape rfl
      exact put_id_underscore data escape
    · rintro context plug rfl
      rw [teDeclarations_render, List.nil_append]
    · intro mem labelMem p hp
      rw [trfid_short h]
      exact typeLabel_eq (by rw [hlen]; exact Nat.le_trans h (by decide)) labelMem p hp

/-- An id of two characters. -/
theorem selinux_labels_agree_two : SelinuxLabelsAgree (.lit "ab") :=
  (selinux_labels_agree validId_two.1).2 (by decide)

/-- What the memory holds follows the first four bytes. -/
theorem selinux_labels_memory :
    ValidId (.lit "demo-app") ∧
      selinuxGetLabel (fun _ => 0) (.lit "demo-app") = .lit "system_u:system_r:demo_t:s0" ∧
      ¬ SelinuxLabelsAgree (.lit "demo-app") := by
  have hlabel : selinuxGetLabel (fun _ => 0) (.lit "demo-app") =
      .lit "system_u:system_r:demo_t:s0" := by decide +kernel
  refine ⟨⟨by decide, by decide, by decide +kernel⟩, hlabel, fun h => ?_⟩
  have hdomain := h.domain fun _ => 0
  rw [hlabel] at hdomain
  revert hdomain
  decide +kernel

/-! ### Isolation -/

/-- Two bytes of ids that the types do not tell apart. -/
def DashAlike (c d : UInt8) : Prop := c = d ∨ (c = 45 ∧ d = 95) ∨ (c = 95 ∧ d = 45)

/-- Two characters become the same when they are, or are a dash and an underscore. -/
theorem underscored_eq_iff {c d : UInt8} :
    TemplateData.underscored c = TemplateData.underscored d ↔ DashAlike c d := by
  unfold TemplateData.underscored DashAlike
  split <;> split <;> grind

/-- So do two ids, character by character. -/
theorem underscores_eq_iff {a b : CStr} :
    underscores a = underscores b ↔ List.Forall₂ DashAlike a.bytes b.bytes := by
  rw [CStr.ext_iff, ← List.forall₂_eq_eq_eq]
  simp only [underscores, List.forall₂_map_left_iff, List.forall₂_map_right_iff, underscored_eq_iff]

/-- **The types of two applications** are the same when their ids differ in dashes and underscores
only. So are their labels, where `trfid` copies the id whole. -/
theorem selinux_types_distinct (data data' : TemplateData) (escape : Bool) :
    (data.put (.lit "id_underscore") escape = data'.put (.lit "id_underscore") escape ↔
      List.Forall₂ DashAlike data.context.idString.bytes data'.context.idString.bytes) ∧
    (data.context.idString.length ≤ 3 → data'.context.idString.length ≤ 3 → ∀ mem mem',
      (selinuxGetLabel mem data.context.idString = selinuxGetLabel mem' data'.context.idString ↔
        List.Forall₂ DashAlike data.context.idString.bytes data'.context.idString.bytes)) := by
  rw [← underscores_eq_iff]
  refine ⟨?_, fun h h' mem mem' => ?_⟩
  · rw [put_id_underscore, put_id_underscore, Prod.mk.injEq, and_iff_right rfl, CStr.ext_iff]
  · rw [selinuxGetLabel_short h, selinuxGetLabel_short h']
    simp [CStr.ext_iff]

/-- Two applications with the same types and the same label. -/
theorem selinux_types_shared :
    let set id := contextSetId (contextCreate fun _ => 0) (.lit id)
    let rendered id := TemplateData.put ⟨(set id).2, []⟩ (.lit "id_underscore") false
    (set "a-b").1 = 0 ∧ (set "a_b").1 = 0 ∧
      (set "a-b").2.idString = .lit "a-b" ∧ (set "a_b").2.idString = .lit "a_b" ∧
      rendered "a-b" = rendered "a_b" ∧
      ∀ mem, selinuxGetLabel mem (.lit "a-b") = selinuxGetLabel mem (.lit "a_b") := by
  refine ⟨by decide +kernel, by decide +kernel, by decide +kernel, by decide +kernel,
    by decide +kernel, fun mem => ?_⟩
  rw [selinuxGetLabel_short (by decide), selinuxGetLabel_short (by decide)]
  decide

end SecLsmManager
