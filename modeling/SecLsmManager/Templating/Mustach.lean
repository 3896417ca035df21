import SecLsmManager.Base
import Mathlib.Data.List.DropRight

/-!
# The template engine

`templating/mustach.c`, for the callbacks that `template.c` gives: `put` without `emit` and
`get`, so that the text is emitted as it is and a partial is what `put` writes. A template is the
list of its bytes before the NUL, a pointer into it the list of the bytes that remain. The writes
to the file succeed. `process` goes back to the start of a section as long as `next` says so: it
takes fuel.
-/

namespace SecLsmManager

/-- Maximum nested imbrications supported. -/
def MUSTACH_MAX_DEPTH : Nat := 256

/-- Maximum length of tags. -/
def MUSTACH_MAX_LENGTH : Nat := 1024

def MUSTACH_OK : Int := 0
def MUSTACH_ERROR_UNEXPECTED_END : Int := -2
def MUSTACH_ERROR_EMPTY_TAG : Int := -3
def MUSTACH_ERROR_TAG_TOO_LONG : Int := -4
def MUSTACH_ERROR_BAD_SEPARATORS : Int := -5
def MUSTACH_ERROR_TOO_DEEP : Int := -6
def MUSTACH_ERROR_CLOSING : Int := -7
def MUSTACH_ERROR_BAD_UNESCAPE_TAG : Int := -8

/-! ## Characters and strings -/

/-- `isspace`, in the C locale. -/
def isspace (c : UInt8) : Bool := c = 32 || (9 ≤ c && c ≤ 13)

/-- `strstr`: what stands before the first occurrence, and the text from it on. -/
def strstr (needle : List UInt8) : List UInt8 → Option (List UInt8 × List UInt8)
  | [] => if needle = [] then some ([], []) else none
  | c :: s =>
    if needle <+: c :: s then some ([], c :: s)
    else (strstr needle s).map fun (before, found) => (c :: before, found)

/-- What the two loops over the blanks leave. -/
def trim (s : List UInt8) : List UInt8 := (s.dropWhile isspace).rdropWhile isspace

/-! ## Tags -/

/-- The tags. `replacement` tells whether to escape. -/
inductive Tag
  | comment
  | separators (beg : List UInt8)
  | beginSection (inverted : Bool) (name : List UInt8)
  | endSection (name : List UInt8)
  | inclusion (name : List UInt8)
  | replacement (escape : Bool) (name : List UInt8)
  deriving DecidableEq

/-- The name of a tag, without the blanks around it. -/
def tagName (beg : List UInt8) : Except Int (List UInt8) :=
  let name := trim beg
  if name = [] then .error MUSTACH_ERROR_EMPTY_TAG
  else if name.length > MUSTACH_MAX_LENGTH then .error MUSTACH_ERROR_TAG_TOO_LONG
  else .ok name

/-- The first switch, on the first byte of the tag `beg` (of the separator, for an empty tag), and
the template after it. -/
def readTag (clstr beg template : List UInt8) : Except Int (Tag × List UInt8) :=
  match (beg ++ clstr).head? with
  -- `!` and `=`: the text of the tag is not a name
  | some 33 => .ok (.comment, template)
  | some 61 => .ok (.separators beg, template)
  -- `{`
  | some 123 =>
    if clstr.any (· ≠ 125) then
      if beg.getLast? ≠ some 125 then .error MUSTACH_ERROR_BAD_UNESCAPE_TAG
      else (tagName beg.tail.dropLast).map fun name => (.replacement false name, template)
    else
      if template.head? ≠ some 125 then .error MUSTACH_ERROR_BAD_UNESCAPE_TAG
      else (tagName beg.tail).map fun name => (.replacement false name, template.tail)
  -- `^`, `#`, `/`, `&`, `>` and `:`
  | some 94 => marked fun name => .beginSection true name
  | some 35 => marked fun name => .beginSection false name
  | some 47 => marked .endSection
  | some 38 => marked fun name => .replacement false name
  | some 62 => marked .inclusion
  | some 58 => marked fun name => .replacement true name
  | _ => (tagName beg).map fun name => (.replacement true name, template)
where
  /-- A tag that starts with a mark. Without a character, `len` wraps around. -/
  marked (tag : List UInt8 → Tag) : Except Int (Tag × List UInt8) :=
    if beg = [] then .error MUSTACH_ERROR_TAG_TOO_LONG
    else (tagName beg.tail).map fun name => (tag name, template)

/-- The separators that a tag defines. -/
def readSeparators (beg : List UInt8) : Option (List UInt8 × List UInt8) :=
  if beg.length < 5 ∨ beg.getLast? ≠ some 61 then none
  else
    let inside := beg.tail.dropLast
    let opstr := inside.takeWhile (!isspace ·)
    let clstr := (inside.drop opstr.length).dropWhile isspace
    if opstr.length = inside.length ∨ clstr = [] then none else some (opstr, clstr)

/-! ## Processing -/

/-- The callbacks. `put` returns also what it writes. -/
structure MustachItf (γ : Type*) where
  put : γ → CStr → Bool → Int × List UInt8
  enter : γ → CStr → Int × γ
  next : γ → Int × γ
  leave : γ → γ

/-- A section that is open. -/
structure Frame where
  name : List UInt8
  again : List UInt8
  enabled : Bool
  entered : Bool

/-- The variables of `process`. -/
structure Mustach (γ : Type*) where
  template : List UInt8
  opstr : List UInt8
  clstr : List UInt8
  stack : List Frame
  enabled : Bool
  closure : γ
  file : List UInt8

/-- How a turn of the loop ends. -/
inductive Turn (γ : Type*)
  | stop (rc : Int) (closure : γ) (file : List UInt8)
  | again (m : Mustach γ)
  /-- The template of a partial is processed first. -/
  | inclusion (template : List UInt8) (m : Mustach γ)

section
variable {γ : Type*} (itf : MustachItf γ)

/-- `iwrap_emit`: text is emitted without escape. -/
def iwrapEmit (file buffer : List UInt8) : List UInt8 := file ++ buffer

def Mustach.stop (m : Mustach γ) (rc : Int) : Turn γ := .stop rc m.closure m.file

/-- The second switch. -/
def Mustach.act (m : Mustach γ) : Tag → Turn γ
  | .comment => .again m
  | .separators beg =>
    match readSeparators beg with
    | none => m.stop MUSTACH_ERROR_BAD_SEPARATORS
    | some (opstr, clstr) => .again { m with opstr, clstr }
  | .beginSection inverted name =>
    if m.stack.length = MUSTACH_MAX_DEPTH then m.stop MUSTACH_ERROR_TOO_DEEP
    else
      let (rc, closure) := if m.enabled then itf.enter m.closure (.ofBytes name) else (0, m.closure)
      let m := { m with closure }
      if rc < 0 then m.stop rc
      else .again { m with
        stack := ⟨name, m.template, m.enabled, rc != 0⟩ :: m.stack
        enabled := if inverted == (rc != 0) then false else m.enabled }
  | .endSection name =>
    match m.stack with
    | [] => m.stop MUSTACH_ERROR_CLOSING
    | frame :: stack =>
      if frame.name ≠ name then m.stop MUSTACH_ERROR_CLOSING
      else
        let (rc, closure) := if m.enabled && frame.entered then itf.next m.closure
          else (0, m.closure)
        let m := { m with closure }
        if rc < 0 then m.stop rc
        else if rc ≠ 0 then .again { m with template := frame.again }
        else .again { m with
          stack
          enabled := frame.enabled
          closure := if frame.enabled && frame.entered then itf.leave closure else closure }
  | .inclusion name =>
    if m.enabled then
      -- `iwrap_partial` puts the partial in a memory file
      let (rc, text) := itf.put m.closure (.ofBytes name) false
      if rc < 0 then m.stop rc else .inclusion (CStr.ofBytes text).bytes m
    else .again m
  | .replacement escape name =>
    if m.enabled then
      let (rc, text) := itf.put m.closure (.ofBytes name) escape
      let m := { m with file := m.file ++ text }
      if rc < 0 then m.stop rc else .again m
    else .again m

/-- One turn of the loop. -/
def Mustach.turn (m : Mustach γ) : Turn γ :=
  match strstr m.opstr m.template with
  | none =>
    let m := { m with file := if m.enabled then iwrapEmit m.file m.template else m.file }
    m.stop (if m.stack ≠ [] then MUSTACH_ERROR_UNEXPECTED_END else MUSTACH_OK)
  | some (text, beg) =>
    let m := { m with file := if m.enabled then iwrapEmit m.file text else m.file }
    match strstr m.clstr (beg.drop m.opstr.length) with
    | none => m.stop MUSTACH_ERROR_UNEXPECTED_END
    | some (beg, term) =>
      match readTag m.clstr beg (term.drop m.clstr.length) with
      | .error rc => m.stop rc
      | .ok (tag, template) => { m with template }.act itf tag

/-- `process`: the code, the closure and the file. -/
def process : Nat → Mustach γ → Option (Int × γ × List UInt8)
  | 0, _ => none
  | fuel + 1, m =>
    match m.turn itf with
    | .stop rc closure file => some (rc, closure, file)
    | .again m => process fuel m
    | .inclusion template m =>
      match process fuel { m with template, stack := [], enabled := true } with
      | none => none
      | some (rc, closure, file) =>
        if rc < 0 then some (rc, closure, file) else process fuel { m with closure, file }

/-- `fmustach`, on an empty file. -/
def fmustach (fuel : Nat) (template : CStr) (closure : γ) : Option (Int × γ × List UInt8) :=
  process itf fuel
    { template := template.bytes, opstr := [123, 123], clstr := [125, 125], stack := []
      enabled := true, closure, file := [] }

end

end SecLsmManager
