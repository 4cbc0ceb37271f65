import Mathlib

/-!
# JSON values and their compact text

A value keeps its numbers as the text they print to and its objects as a list of fields. `render`
is the compact encoding, `size` its length in bytes; the size of an array or of an object is the sum
of the sizes of its parts and of the separators (`size_array`, `size_object`).
-/

inductive Json
  | null
  | bool (value : Bool)
  | number (text : List Char)
  | string (text : String)
  | array (items : List Json)
  | object (fields : List (String × Json))

def byteLength (text : List Char) : ℕ := (text.map Char.utf8Size).sum

@[simp] theorem byteLength_nil : byteLength [] = 0 := rfl

@[simp] theorem byteLength_cons (c : Char) (text : List Char) :
    byteLength (c :: text) = c.utf8Size + byteLength text := by
  simp [byteLength]

@[simp] theorem byteLength_append (text text' : List Char) :
    byteLength (text ++ text') = byteLength text + byteLength text' := by
  simp [byteLength]

theorem byteLength_intercalate (sep : List Char) (parts : List (List Char)) :
    byteLength (sep.intercalate parts) =
      (parts.map byteLength).sum + (parts.length - 1) * byteLength sep := by
  induction parts with
  | nil => simp
  | cons part rest ih =>
    cases rest with
    | nil => simp
    | cons next rest =>
      rw [List.intercalate_cons_cons, byteLength_append, byteLength_append, ih]
      simp only [List.map_cons, List.sum_cons, List.length_cons, Nat.add_sub_cancel]
      ring

namespace Json

/-! ## Fields -/

section

variable (fields : List (String × Json)) (name : String)

/-- The value of a field, if there is one. -/
def lookup : Option Json :=
  (fields.find? fun field => field.1 = name).map Prod.snd

/-- Set a field: in place when it exists, at the end otherwise. -/
def setField (value : Json) : List (String × Json) :=
  if fields.any fun field => field.1 = name then
    fields.map fun field => if field.1 = name then (name, value) else field
  else fields ++ [(name, value)]

def removeField : List (String × Json) :=
  fields.filter fun field => field.1 ≠ name

end

/-- `value[name]`: null for a missing field and for a value that is no object. -/
def field : Json → String → Json
  | .object fields, name => (lookup fields name).getD .null
  | _, _ => .null

def hasField : Json → String → Bool
  | .object fields, name => (lookup fields name).isSome
  | _, _ => false

def asStr : Json → Option String
  | .string text => some text
  | _ => none

def ofNat (n : ℕ) : Json := .number (Nat.toDigits 10 n)

def ofInt : ℤ → Json
  | .ofNat n => ofNat n
  | .negSucc n => .number ('-' :: Nat.toDigits 10 (n + 1))

/-! ## Text -/

def hexDigit (n : ℕ) : Char := Char.ofNat (if n < 10 then 48 + n else 87 + n)

/-- A character inside a quoted string. -/
def escape (c : Char) : List Char :=
  if c = '"' then ['\\', '"']
  else if c = '\\' then ['\\', '\\']
  else if c.toNat = 8 then ['\\', 'b']
  else if c.toNat = 12 then ['\\', 'f']
  else if c = '\n' then ['\\', 'n']
  else if c = '\r' then ['\\', 'r']
  else if c = '\t' then ['\\', 't']
  else if c.toNat < 32 then
    ['\\', 'u', '0', '0', hexDigit (c.toNat / 16), hexDigit (c.toNat % 16)]
  else [c]

def quote (text : String) : List Char := '"' :: text.toList.flatMap escape ++ ['"']

mutual

/-- The compact text of a value. -/
def render : Json → List Char
  | .null => "null".toList
  | .bool true => "true".toList
  | .bool false => "false".toList
  | .number text => text
  | .string text => quote text
  | .array items => '[' :: [','].intercalate (renderItems items) ++ [']']
  | .object fields => '\x7b' :: [','].intercalate (renderFields fields) ++ ['\x7d']

def renderItems : List Json → List (List Char)
  | [] => []
  | item :: rest => render item :: renderItems rest

def renderFields : List (String × Json) → List (List Char)
  | [] => []
  | (name, value) :: rest => (quote name ++ ':' :: render value) :: renderFields rest

end

/-- The length of the compact text in bytes. -/
def size (value : Json) : ℕ := byteLength value.render

theorem renderItems_eq (items : List Json) : renderItems items = items.map render := by
  induction items with
  | nil => rfl
  | cons item rest ih => rw [renderItems, List.map_cons, ih]

theorem renderFields_eq (fields : List (String × Json)) :
    renderFields fields = fields.map fun field => quote field.1 ++ ':' :: render field.2 := by
  induction fields with
  | nil => rfl
  | cons field rest ih => rw [renderFields, List.map_cons, ih]

theorem size_array (items : List Json) :
    (array items).size = (items.map size).sum + (items.length - 1) + 2 := by
  have hsep : byteLength [','] = 1 := rfl
  have hen : byteLength ['['] + byteLength [']'] = 2 := rfl
  have hs : (items.map render).map byteLength = items.map size := List.map_map ..
  have ht : render (array items) =
      ['['] ++ [','].intercalate (items.map render) ++ [']'] := by
    rw [render, renderItems_eq]
    rfl
  rw [size, ht, byteLength_append, byteLength_append, byteLength_intercalate, hs, hsep,
    List.length_map]
  omega

theorem size_object (fields : List (String × Json)) :
    (object fields).size =
      (fields.map fun field => byteLength (quote field.1) + 1 + field.2.size).sum +
        (fields.length - 1) + 2 := by
  have hsep : byteLength [','] = 1 := rfl
  have hen : byteLength ['\x7b'] + byteLength ['\x7d'] = 2 := rfl
  have hs : (renderFields fields).map byteLength =
      fields.map fun field => byteLength (quote field.1) + 1 + field.2.size := by
    rw [renderFields_eq]
    have hc : ':'.utf8Size = 1 := rfl
    simp [size, hc, Nat.add_assoc]
  have ht : render (object fields) =
      ['\x7b'] ++ [','].intercalate (renderFields fields) ++ ['\x7d'] := by
    rfl
  have hl : (renderFields fields).length = fields.length := by
    rw [renderFields_eq, List.length_map]
  rw [size, ht, byteLength_append, byteLength_append, byteLength_intercalate, hs, hsep]
  omega

/-- A number below `10 ^ digits` takes at most that many bytes. -/
theorem size_ofNat_le {n digits : ℕ} (hd : 0 < digits) (h : n < 10 ^ digits) :
    (ofNat n).size ≤ digits := by
  have hasc : ∀ c ∈ Nat.toDigits 10 n, c.utf8Size = 1 := by
    intro c hc
    have hdi := Nat.isDigit_of_mem_toDigits (by omega) (by omega) hc
    simp only [Char.isDigit, Bool.and_eq_true, decide_eq_true_eq] at hdi
    exact Char.utf8Size_eq_one_iff.2 (UInt32.le_trans hdi.2 (by decide))
  have hsum : (ofNat n).size = (Nat.toDigits 10 n).length := by
    rw [size, ofNat, render, byteLength, List.map_congr_left hasc]
    simp
  exact hsum.trans_le (Nat.toDigits_length 10 n digits hd h)

end Json
