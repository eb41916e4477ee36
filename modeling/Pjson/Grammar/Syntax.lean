/-
  RFC 8259: which byte strings are JSON texts, and what a text denotes.

  `Json` is the parse tree with the members of an object in the order of the text, repeated names
  included; strings and names are the decoded bytes.  `Value x t` says that the bytes `t` are a
  spelling of `x`, one constructor a production; `Elements` and `Members` are the nonempty
  comma-separated lists, each item with the white space the grammar allows around it, and
  `JsonText` adds the white space around the one value of a document.  The grammar says nothing
  about limits or policies: those are functions of the tree (`depth`, `nodes`, `denote`).

  `denote` is the meaning: numbers by a conversion that may refuse, objects by folding the
  members under a duplicate-key policy.
-/
import Pjson.Grammar.Number

namespace ByteDance

/-- A parse tree. -/
inductive Json where
  | null
  | bool (b : Bool)
  | number (t : NumberToken)
  | string (s : Bytes)
  | array (xs : List Json)
  | object (ms : List (Bytes × Json))

/-- Induction on a tree: a container's case may assume every child. -/
@[elab_as_elim]
theorem Json.induct {motive : Json → Prop} (null : motive .null) (bool : ∀ b, motive (.bool b))
    (number : ∀ t, motive (.number t)) (string : ∀ s, motive (.string s))
    (array : ∀ xs, (∀ x ∈ xs, motive x) → motive (.array xs))
    (object : ∀ ms, (∀ m ∈ ms, motive m.2) → motive (.object ms)) : ∀ x, motive x
  | .null => null
  | .bool b => bool b
  | .number t => number t
  | .string s => string s
  | .array xs => array xs fun x hx =>
      have : sizeOf x < sizeOf xs := List.sizeOf_lt_of_mem hx
      Json.induct null bool number string array object x
  | .object ms => object ms fun m hm =>
      have h₁ : sizeOf m < sizeOf ms := List.sizeOf_lt_of_mem hm
      have h₂ : sizeOf m.2 < sizeOf m := by cases m; simp
      Json.induct null bool number string array object m.2
termination_by x => sizeOf x
decreasing_by all_goals simp only [Json.array.sizeOf_spec, Json.object.sizeOf_spec]; omega

/-! ## Tokens -/

/-- White space between tokens. -/
def Ws (w : Bytes) : Prop := ∀ b ∈ w, b = 0x20 ∨ b = 0x09 ∨ b = 0x0A ∨ b = 0x0D

/-- The byte after a backslash that stands for one byte, and that byte. -/
def simpleEscape (e : UInt8) : Option UInt8 :=
  if e = 0x22 then some 0x22
  else if e = 0x5C then some 0x5C
  else if e = 0x2F then some 0x2F
  else if e = 0x62 then some 0x08
  else if e = 0x66 then some 0x0C
  else if e = 0x6E then some 0x0A
  else if e = 0x72 then some 0x0D
  else if e = 0x74 then some 0x09
  else none

/-- What a hexadecimal digit counts for. -/
def hexVal (h : UInt8) : Option Nat :=
  if 0x30 ≤ h ∧ h ≤ 0x39 then some (h.toNat - 0x30)
  else if 0x61 ≤ h ∧ h ≤ 0x66 then some (h.toNat - 0x61 + 10)
  else if 0x41 ≤ h ∧ h ≤ 0x46 then some (h.toNat - 0x41 + 10)
  else none

/-- Four hexadecimal digits and the code unit they spell. -/
def HexQuad (q : Bytes) (u : Nat) : Prop :=
  ∃ a b c d va vb vc vd, q = [a, b, c, d] ∧ hexVal a = some va ∧ hexVal b = some vb ∧
    hexVal c = some vc ∧ hexVal d = some vd ∧ u = va * 4096 + vb * 256 + vc * 16 + vd

/-- What a pair of surrogates stands for. -/
def surrogatePair (hi lo : Nat) : Nat := 0x10000 + (hi - 0xD800) * 0x400 + (lo - 0xDC00)

/-- One character of a string token, and the bytes it denotes. -/
inductive StringChar : Bytes → Bytes → Prop where
  | raw {cp : Nat} : Utf8.IsScalar cp → 0x20 ≤ cp → cp ≠ 0x22 → cp ≠ 0x5C →
      StringChar (Utf8.encode cp) (Utf8.encode cp)
  | escape {e d : UInt8} : simpleEscape e = some d → StringChar [0x5C, e] [d]
  | unicode {q : Bytes} {cp : Nat} : HexQuad q cp → Utf8.IsScalar cp →
      StringChar (0x5C :: 0x75 :: q) (Utf8.encode cp)
  | surrogates {q r : Bytes} {hi lo : Nat} : HexQuad q hi → HexQuad r lo →
      0xD800 ≤ hi → hi ≤ 0xDBFF → 0xDC00 ≤ lo → lo ≤ 0xDFFF →
      StringChar (0x5C :: 0x75 :: (q ++ 0x5C :: 0x75 :: r)) (Utf8.encode (surrogatePair hi lo))

/-- The characters of a string token between its quotes, and the bytes they denote. -/
inductive StringBody : Bytes → Bytes → Prop where
  | nil : StringBody [] []
  | cons {t s t' s' : Bytes} : StringChar t s → StringBody t' s' → StringBody (t ++ t') (s ++ s')

def nullText : Bytes := [0x6E, 0x75, 0x6C, 0x6C]

def trueText : Bytes := [0x74, 0x72, 0x75, 0x65]

def falseText : Bytes := [0x66, 0x61, 0x6C, 0x73, 0x65]

/-! ## Values -/

mutual
/-- `t` is a spelling of the value `x`. -/
inductive Value : Json → Bytes → Prop where
  | null : Value .null nullText
  | true : Value (.bool Bool.true) trueText
  | false : Value (.bool Bool.false) falseText
  | number (t : NumberToken) : Value (.number t) t.text
  | string {t s : Bytes} : StringBody t s → Value (.string s) (0x22 :: (t ++ [0x22]))
  | emptyArray {w : Bytes} : Ws w → Value (.array []) (0x5B :: (w ++ [0x5D]))
  | array {xs : List Json} {t : Bytes} : Elements xs t → Value (.array xs) (0x5B :: (t ++ [0x5D]))
  | emptyObject {w : Bytes} : Ws w → Value (.object []) (0x7B :: (w ++ [0x7D]))
  | object {ms : List (Bytes × Json)} {t : Bytes} : Members ms t →
      Value (.object ms) (0x7B :: (t ++ [0x7D]))

/-- `t` is a spelling of the elements `xs` of an array. -/
inductive Elements : List Json → Bytes → Prop where
  | one {x : Json} {w t w' : Bytes} : Ws w → Value x t → Ws w' → Elements [x] (w ++ (t ++ w'))
  | cons {x : Json} {xs : List Json} {w t w' r : Bytes} : Ws w → Value x t → Ws w' →
      Elements xs r → Elements (x :: xs) (w ++ (t ++ (w' ++ 0x2C :: r)))

/-- `t` is a spelling of the members `ms` of an object. -/
inductive Members : List (Bytes × Json) → Bytes → Prop where
  | one {k kt : Bytes} {x : Json} {w w₁ w₂ t w' : Bytes} : Ws w → StringBody kt k → Ws w₁ →
      Ws w₂ → Value x t → Ws w' →
      Members [(k, x)] (w ++ 0x22 :: (kt ++ 0x22 :: (w₁ ++ 0x3A :: (w₂ ++ (t ++ w')))))
  | cons {k kt : Bytes} {x : Json} {ms : List (Bytes × Json)} {w w₁ w₂ t w' r : Bytes} : Ws w →
      StringBody kt k → Ws w₁ → Ws w₂ → Value x t → Ws w' → Members ms r →
      Members ((k, x) :: ms)
        (w ++ 0x22 :: (kt ++ 0x22 :: (w₁ ++ 0x3A :: (w₂ ++ (t ++ (w' ++ 0x2C :: r))))))
end

/-- `s` is a JSON text with parse tree `x`. -/
def JsonText (x : Json) (s : Bytes) : Prop :=
  ∃ w t w', Ws w ∧ Value x t ∧ Ws w' ∧ s = w ++ (t ++ w')

/-! ## Size and meaning of a tree -/

namespace Json

mutual
/-- The number of values, those of repeated members included; names are not values. -/
def nodes : Json → Nat
  | .array xs => 1 + nodesElements xs
  | .object ms => 1 + nodesMembers ms
  | _ => 1
def nodesElements : List Json → Nat
  | [] => 0
  | x :: xs => nodes x + nodesElements xs
def nodesMembers : List (Bytes × Json) → Nat
  | [] => 0
  | (_, x) :: ms => nodes x + nodesMembers ms
end

mutual
/-- How deep containers nest. -/
def depth : Json → Nat
  | .array xs => 1 + depthElements xs
  | .object ms => 1 + depthMembers ms
  | _ => 0
def depthElements : List Json → Nat
  | [] => 0
  | x :: xs => max (depth x) (depthElements xs)
def depthMembers : List (Bytes × Json) → Nat
  | [] => 0
  | (_, x) :: ms => max (depth x) (depthMembers ms)
end

mutual
/-- The number tokens of a tree, in the order of the text. -/
def numbers : Json → List NumberToken
  | .number t => [t]
  | .array xs => numbersElements xs
  | .object ms => numbersMembers ms
  | _ => []
def numbersElements : List Json → List NumberToken
  | [] => []
  | x :: xs => numbers x ++ numbersElements xs
def numbersMembers : List (Bytes × Json) → List NumberToken
  | [] => []
  | (_, x) :: ms => numbers x ++ numbersMembers ms
end

/-- One member more in an object: what the duplicate-key policy makes of a name that is already
    there. -/
def addMember (policy : DuplicateKeyPolicy) (k : Bytes) (v : Pjson)
    (members : List (Bytes × Pjson)) : Option (List (Bytes × Pjson)) :=
  if k ∈ Assoc.keys members then
    match policy with
    | .RejectDuplicateKeys => none
    | .KeepFirstDuplicate => some members
    | .KeepLastDuplicate => some (Assoc.assign k v members)
  else some (members ++ [(k, v)])

mutual
/-- **The meaning of a tree** under a number conversion and a duplicate-key policy. -/
def denote (convert : NumberToken → Option ParsedNumber) (policy : DuplicateKeyPolicy) :
    Json → Option Pjson
  | .null => some .jsonNull
  | .bool b => some (.jsonBoolean b)
  | .number t => (convert t).map ParsedNumber.toPjson
  | .string s => some (.jsonString s)
  | .array xs => (denoteElements convert policy xs).map .jsonArray
  | .object ms => (denoteMembers convert policy [] ms).map .jsonObject
def denoteElements (convert : NumberToken → Option ParsedNumber) (policy : DuplicateKeyPolicy) :
    List Json → Option (List Pjson)
  | [] => some []
  | x :: xs => do
    let v ← denote convert policy x
    let vs ← denoteElements convert policy xs
    return v :: vs
def denoteMembers (convert : NumberToken → Option ParsedNumber) (policy : DuplicateKeyPolicy)
    (members : List (Bytes × Pjson)) : List (Bytes × Json) → Option (List (Bytes × Pjson))
  | [] => some members
  | (k, x) :: ms => do
    let v ← denote convert policy x
    let members ← addMember policy k v members
    denoteMembers convert policy members ms
end

end Json

end ByteDance
