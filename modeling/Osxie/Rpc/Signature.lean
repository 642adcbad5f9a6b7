import Mathlib.Data.List.Basic

/-!
# RPC signatures and the generator's types

`generate-rpc-wrappers.py` reads a table of calls, each with its call and reply parameters, and writes the C declarations and
the client and server wrappers for them. A parameter has a name, a public type and sometimes a private type; the types are
texts. `parseType` gives the text the declarations use, and refuses a private type that is not one of `allowedPrivateTypes`; the
public type `@fd` stands for a descriptor and is carried as an `int32_t`.
-/

namespace Osxie.Rpc

/-- A parameter of a call or of a reply: the tuple of two or three members of the table. -/
structure Param where
  name : String
  publicType : String
  privateType : Option String
deriving DecidableEq

/-- A call of the table: its name, the parameters its callers give and the ones it returns. -/
structure Signature where
  name : String
  callParameters : List Param
  replyParameters : List Param
deriving DecidableEq

/-- The integral types of fixed width that the wire format knows. -/
inductive PrivateType where
  | bool
  | int8
  | uint8
  | int16
  | uint16
  | int32
  | uint32
  | int64
  | uint64
deriving DecidableEq

/-- The text of a private type in the generated declarations. -/
def PrivateType.text : PrivateType → String
  | .bool => "bool"
  | .int8 => "int8_t"
  | .uint8 => "uint8_t"
  | .int16 => "int16_t"
  | .uint16 => "uint16_t"
  | .int32 => "int32_t"
  | .uint32 => "uint32_t"
  | .int64 => "int64_t"
  | .uint64 => "uint64_t"

/-- The type a text denotes, if it is one of the wire format's. -/
def PrivateType.ofText? : String → Option PrivateType
  | "bool" => some .bool
  | "int8_t" => some .int8
  | "uint8_t" => some .uint8
  | "int16_t" => some .int16
  | "uint16_t" => some .uint16
  | "int32_t" => some .int32
  | "uint32_t" => some .uint32
  | "int64_t" => some .int64
  | "uint64_t" => some .uint64
  | _ => none

def allowedPrivateTypes : List String :=
  ["bool", "int8_t", "uint8_t", "int16_t", "uint16_t", "int32_t", "uint32_t", "int64_t", "uint64_t"]

/-- The characters that Python's `strip` removes. -/
def isSpace (c : Char) : Bool :=
  let n := c.toNat
  (0x09 ≤ n && n ≤ 0x0d) || (0x1c ≤ n && n ≤ 0x20) || n == 0x85 || n == 0xa0 || n == 0x1680 ||
    (0x2000 ≤ n && n ≤ 0x200a) || n == 0x2028 || n == 0x2029 || n == 0x202f || n == 0x205f || n == 0x3000

/-- Python's `strip`: the text without the white space at its two ends. -/
def strip (s : String) : String := String.ofList ((s.toList.dropWhile isSpace).reverse.dropWhile isSpace).reverse

variable (p : Param)

/-- The text `parse_type` arrives at, before it checks it. -/
def Param.typeStr (isPublic : Bool) : String :=
  if strip p.publicType = "@fd" then
    if isPublic then "int" else "int32_t"
  else
    match p.privateType with
    | some t => if isPublic then strip p.publicType else strip t
    | none => strip p.publicType

/-- The type of a parameter, in the public wrappers or in the private structures. -/
def parseType (isPublic : Bool) : Except String String :=
  let typeStr := p.typeStr isPublic
  if !isPublic && !allowedPrivateTypes.contains typeStr then
    .error ("Invalid private type: " ++ typeStr)
  else
    .ok typeStr

/-- Whether the wrappers treat a parameter as a descriptor; unlike `parseType`, on the text as it is written. -/
def isFd : Bool := p.publicType == "@fd"

/-- The alignment the generator asks for a member of the given type; 0 where it asks for none. -/
def alignmentForType (type : String) : Nat :=
  if type = "int64_t" ∨ type = "uint64_t" then 8 else 0

/-- The private type of a parameter, as the C compiler reads the text of `parseType`. -/
def Param.privateTypeOf : Except String PrivateType :=
  match PrivateType.ofText? (p.typeStr false) with
  | some t => .ok t
  | none => .error ("Invalid private type: " ++ p.typeStr false)

/-- Every text that denotes a type of the wire format is the text of that type. -/
theorem PrivateType.text_of_ofText? {s : String} {t : PrivateType} (h : ofText? s = some t) : t.text = s := by
  unfold ofText? at h
  split at h <;> first | (cases h; rfl) | cases h

/-- The text of a type denotes that type. -/
@[simp] theorem PrivateType.ofText?_text (t : PrivateType) : ofText? t.text = some t := by
  cases t <;> rfl

/-- The allowed private types are the texts of the wire format's types. -/
theorem mem_allowedPrivateTypes {s : String} : s ∈ allowedPrivateTypes ↔ ∃ t : PrivateType, t.text = s := by
  constructor
  · intro h
    simp only [allowedPrivateTypes, List.mem_cons, List.not_mem_nil, or_false] at h
    rcases h with h | h | h | h | h | h | h | h | h <;> subst h
    exacts [⟨.bool, rfl⟩, ⟨.int8, rfl⟩, ⟨.uint8, rfl⟩, ⟨.int16, rfl⟩, ⟨.uint16, rfl⟩, ⟨.int32, rfl⟩, ⟨.uint32, rfl⟩,
      ⟨.int64, rfl⟩, ⟨.uint64, rfl⟩]
  · rintro ⟨t, rfl⟩
    cases t <;> decide

/-- What `parse_type` accepts as a private type is what denotes a type of the wire format, and it returns its text. -/
theorem parseType_private : parseType p false = p.privateTypeOf.map PrivateType.text := by
  simp only [parseType, Param.privateTypeOf, Bool.not_false, Bool.true_and]
  cases h : PrivateType.ofText? (p.typeStr false) with
  | some t =>
    have hmem : p.typeStr false ∈ allowedPrivateTypes := mem_allowedPrivateTypes.2 ⟨t, PrivateType.text_of_ofText? h⟩
    simp [hmem, Except.map, PrivateType.text_of_ofText? h]
  | none =>
    have hmem : p.typeStr false ∉ allowedPrivateTypes := by
      intro hmem
      obtain ⟨t, ht⟩ := mem_allowedPrivateTypes.1 hmem
      rw [← ht, PrivateType.ofText?_text] at h
      cases h
    simp [hmem, Except.map]

/-- A parameter whose private type is one of the allowed ones, or that is a descriptor. -/
def Param.Allowed : Prop := strip p.publicType = "@fd" ∨ strip (p.privateType.getD p.publicType) ∈ allowedPrivateTypes

instance : Decidable p.Allowed := inferInstanceAs (Decidable (_ ∨ _))

/-- The generator accepts the private type of a parameter exactly when it is allowed. -/
theorem privateTypeOf_isOk_iff : (∃ t, p.privateTypeOf = .ok t) ↔ p.Allowed := by
  have hty : p.typeStr false ∈ allowedPrivateTypes ↔ p.Allowed := by
    unfold Param.Allowed Param.typeStr
    by_cases hfd : strip p.publicType = "@fd"
    · simp [hfd, allowedPrivateTypes]
    · cases p.privateType <;> simp [hfd]
  rw [← hty, mem_allowedPrivateTypes]
  unfold Param.privateTypeOf
  constructor
  · rintro ⟨t, ht⟩
    split at ht
    · exact ⟨_, PrivateType.text_of_ofText? ‹_›⟩
    · cases ht
  · rintro ⟨t, ht⟩
    exact ⟨t, by rw [← ht, PrivateType.ofText?_text]⟩

end Osxie.Rpc
