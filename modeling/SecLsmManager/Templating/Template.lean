import SecLsmManager.Templating.Mustach
import SecLsmManager.Context.Context

/-!
# Templates of a context

`templating/template.c`. The files are a map from paths to contents, and `fopen` may refuse to
open one for writing.
-/

namespace SecLsmManager

/-- `template_data_t`. The current plug is the list from it on, and `NULL` is the empty list. -/
structure TemplateData where
  context : Context
  plug : List Plug

namespace TemplateData

/-- The text of a replacement, before the dashes. -/
def text (data : TemplateData) (name : CStr) : Option CStr :=
  if name = .lit "id" then some data.context.idString
  else if name = .lit "id_underscore" then some data.context.idString
  else if name = .lit "_id_" then some data.context.idString
  else if name = .lit "impid" ∧ data.plug ≠ [] then data.plug.head?.map Plug.impid
  else if name = .lit "_impid_" ∧ data.plug ≠ [] then data.plug.head?.map Plug.impid
  else none

/-- A byte as it is written, with the dash turned into an underscore. -/
def underscored (c : UInt8) : UInt8 := if c = 45 then 95 else c

def put (data : TemplateData) (name : CStr) (_escape : Bool) : Int × List UInt8 :=
  let underscore := name.bytes.head? = some 95 || name = .lit "id_underscore"
  match data.text name with
  | none => (0, [])
  | some txt => (0, if underscore then txt.bytes.map underscored else txt.bytes)

def enter (data : TemplateData) (name : CStr) : Int × TemplateData :=
  -- permission checks are prefixed by `p=`
  if [112, 61] <+: name.bytes then
    ((contextHasPermission data.context (.ofBytes (name.bytes.drop 2))).toInt, data)
  else if data.plug ≠ [] then (0, data)
  else if name = .lit "has-plugs" then ((!data.context.plugset.isEmpty).toInt, data)
  else if name = .lit "plugs" then
    ((!data.context.plugset.isEmpty).toInt, { data with plug := data.context.plugset })
  else (0, data)

def leave (data : TemplateData) : TemplateData := { data with plug := [] }

def next (data : TemplateData) : Int × TemplateData :=
  let plug := data.plug.tail
  ((!plug.isEmpty).toInt, { data with plug })

end TemplateData

/-- `itf`. -/
def templateItf : MustachItf TemplateData where
  put := TemplateData.put
  enter := TemplateData.enter
  next := TemplateData.next
  leave := TemplateData.leave

/-- Files and what they hold. -/
abbrev Files := CStr → Option (List UInt8)

/-- `template_process`. `read_file` ends what it reads with a NUL. -/
def Templating.templateProcess (fuel : Nat) (opens : CStr → Bool) (templatePath dest : CStr)
    (context : Context) (files : Files) : Option (Int × Files) :=
  match files templatePath with
  | none => some (-EINVAL, files)
  | some content =>
    if opens dest then
      match fmustach templateItf fuel (.ofBytes content) ⟨context, []⟩ with
      | none => none
      | some (rc, _, text) => some (rc, Function.update files dest (some text))
    else some (-EINVAL, files)

end SecLsmManager
