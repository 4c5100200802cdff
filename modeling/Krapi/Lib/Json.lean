import Mathlib

/-! # JSON values

The document type of a C++ JSON library: objects are ordered maps with one value
per key, an initializer list of pairs makes an object, reads convert or throw
(`none`), and an enumeration goes through a table whose first entry stands for
everything the table does not list. -/
namespace Krapi.Lib

section Members
variable {K V : Type*} [LinearOrder K]

/-- `std::map::emplace`: a key that is there keeps its value. -/
def emplace (key : K) (value : V) : List (K × V) → List (K × V)
  | [] => [(key, value)]
  | (k, v) :: rest =>
    if key < k then (key, value) :: (k, v) :: rest
    else if key = k then (k, v) :: rest
    else (k, v) :: emplace key value rest

theorem lookup_emplace_self {key : K} (value : V) :
    ∀ {members : List (K × V)}, members.lookup key = none → (emplace key value members).lookup key = some value
  | [], _ => List.lookup_cons_self
  | (k, v) :: rest, h => by
    by_cases hk : key = k
    · rw [hk, List.lookup_cons_self] at h
      cases h
    · have hbeq : (key == k) = false := beq_false_of_ne hk
      rw [List.lookup_cons, hbeq] at h
      unfold emplace
      by_cases hlt : key < k
      · rw [if_pos hlt, List.lookup_cons_self]
      · rw [if_neg hlt, if_neg hk, List.lookup_cons, hbeq]
        exact lookup_emplace_self value h

theorem lookup_emplace_of_ne {key other : K} (value : V) (hne : other ≠ key) :
    ∀ members : List (K × V), (emplace key value members).lookup other = members.lookup other
  | [] => by
    rw [emplace, List.lookup_cons, beq_false_of_ne hne]
  | (k, v) :: rest => by
    unfold emplace
    by_cases hlt : key < k
    · rw [if_pos hlt, List.lookup_cons, beq_false_of_ne hne]
    · rw [if_neg hlt]
      by_cases hk : key = k
      · rw [if_pos hk]
      · rw [if_neg hk, List.lookup_cons, List.lookup_cons, lookup_emplace_of_ne value hne rest]

/-- The members an initializer list of pairs makes. -/
def membersOf (pairs : List (K × V)) : List (K × V) :=
  pairs.foldl (fun members pair => emplace pair.1 pair.2 members) []

theorem membersOf_concat (pairs : List (K × V)) (key : K) (value : V) :
    membersOf (pairs ++ [(key, value)]) = emplace key value (membersOf pairs) := List.foldl_append

/-- Where the keys of an initializer list are distinct, its order and the object's
do not matter: each key has the value the list gives it. -/
theorem lookup_membersOf {pairs : List (K × V)} (hkeys : (pairs.map Prod.fst).Nodup) (key : K) :
    (membersOf pairs).lookup key = pairs.lookup key := by
  induction pairs using List.reverseRecOn with
  | nil => rfl
  | append_singleton pairs pair ih =>
    obtain ⟨k, v⟩ := pair
    rw [List.map_append, List.map_singleton] at hkeys
    have ih := ih hkeys.of_append_left
    rw [membersOf_concat, List.lookup_append]
    by_cases hk : key = k
    · subst hk
      have habsent : pairs.lookup key = none := by
        rw [List.lookup_eq_none_iff]
        intro pair hpair
        apply bne_iff_ne.mpr
        intro heq
        have hmem : pair.1 ∈ pairs.map Prod.fst := List.mem_map_of_mem hpair
        exact List.disjoint_of_nodup_append hkeys hmem (List.mem_singleton.mpr heq.symm)
      rw [habsent, lookup_emplace_self v (ih.trans habsent), List.lookup_cons_self]
      rfl
    · rw [lookup_emplace_of_ne v hk, ih, List.lookup_cons, beq_false_of_ne hk]
      exact (Option.or_none).symm

end Members

/-- A JSON value. A float is kept by its bits. -/
inductive Json where
  | null
  | boolean (b : Bool)
  | integer (n : Int64)
  | unsigned (n : UInt64)
  | float (bits : UInt64)
  | string (s : String)
  | array (elements : List Json)
  | object (members : List (String × Json))
  deriving Repr

namespace Json

/-- What an initializer list of pairs of a key and a value makes. -/
def ofPairs (pairs : List (String × Json)) : Json := .object (membersOf pairs)

/-- `operator[]` on a value that may be changed: a missing key is added with null,
null turns into an object, and anything else throws. -/
def index (key : String) : Json → Option Json
  | .object members => some ((members.lookup key).getD .null)
  | .null => some .null
  | _ => none

/-- `operator[]` on a constant: the key has to be there. -/
def constIndex (key : String) : Json → Option Json
  | .object members => members.lookup key
  | _ => none

/-- What a range-based loop goes through: a scalar counts as a list of itself. -/
def elements : Json → List Json
  | .array elements => elements
  | .object members => members.map Prod.snd
  | .null => []
  | scalar => [scalar]

def getString : Json → Option String
  | .string s => some s
  | _ => none

/-- The cast of a double to 64 bits, where it is defined: the value without its
fraction has to fit. -/
def truncate (bits : UInt64) : Option UInt64 :=
  let exponent := (bits.toNat / 2 ^ 52) % 2 ^ 11
  let mantissa := bits.toNat % 2 ^ 52 + (if exponent = 0 then 0 else 2 ^ 52)
  let n := mantissa * 2 ^ exponent / 2 ^ 1075
  if exponent = 2 ^ 11 - 1 then none
  else if n = 0 then some 0
  else if bits.toNat < 2 ^ 63 ∧ n < 2 ^ 64 then some (UInt64.ofNat n)
  else none

/-- `get<uint64_t>`. -/
def getUnsigned : Json → Option UInt64
  | .unsigned n => some n
  | .integer n => some n.toUInt64
  | .float bits => truncate bits
  | _ => none

section Pairs
variable {pairs : List (String × Json)}

theorem index_ofPairs (hkeys : (pairs.map Prod.fst).Nodup) (key : String) :
    (ofPairs pairs).index key = some ((pairs.lookup key).getD .null) := by
  rw [ofPairs, index, lookup_membersOf hkeys]

theorem constIndex_ofPairs (hkeys : (pairs.map Prod.fst).Nodup) (key : String) :
    (ofPairs pairs).constIndex key = pairs.lookup key := lookup_membersOf hkeys key

end Pairs

end Json

/-! ## Enumerations -/

/-- The table of an enumeration: its values and how they are written. -/
structure EnumTable (E : Type) where
  first : E × String
  rest : List (E × String)

namespace EnumTable
variable {E : Type} [DecidableEq E]

def entries (t : EnumTable E) : List (E × String) := t.first :: t.rest

def toJson (t : EnumTable E) (e : E) : Json :=
  .string ((t.entries.find? fun entry => entry.1 = e).getD t.first).2

def fromJson (t : EnumTable E) : Json → E
  | .string s => ((t.entries.find? fun entry => entry.2 = s).getD t.first).1
  | _ => t.first.1

/-- No two values are written the same. -/
def Injective (t : EnumTable E) : Prop := (t.entries.map Prod.snd).Nodup

/-- A value that is in an injective table is read back. -/
theorem fromJson_toJson {t : EnumTable E} (h : t.Injective) {e : E} (he : e ∈ t.entries.map Prod.fst) :
    t.fromJson (t.toJson e) = e := by
  have hfound : (t.entries.find? fun entry => entry.1 = e).isSome := by
    obtain ⟨entry, hmem, heq⟩ := List.mem_map.mp he
    rw [List.find?_isSome]
    exact ⟨entry, hmem, decide_eq_true heq⟩
  obtain ⟨entry, hentry⟩ := Option.isSome_iff_exists.mp hfound
  have hmem : entry ∈ t.entries := List.mem_of_find?_eq_some hentry
  have hvalue : entry.1 = e := by simpa using List.find?_some hentry
  unfold toJson fromJson
  rw [hentry]
  dsimp only [Option.getD_some]
  -- the first entry that is written like this one is this one
  have hback : (t.entries.find? fun other => other.2 = entry.2).isSome := by
    rw [List.find?_isSome]
    exact ⟨entry, hmem, decide_eq_true rfl⟩
  obtain ⟨other, hother⟩ := Option.isSome_iff_exists.mp hback
  have hwritten : other.2 = entry.2 := by simpa using List.find?_some hother
  have hsame : other = entry :=
    List.inj_on_of_nodup_map h (List.mem_of_find?_eq_some hother) hmem hwritten
  rw [hother, Option.getD_some, hsame, hvalue]

/-- The text of a value that is in the table. -/
def Lists (t : EnumTable E) (j : Json) : Prop := ∃ entry ∈ t.entries, j = .string entry.2

theorem lists_toJson (t : EnumTable E) (e : E) : t.Lists (t.toJson e) := by
  refine ⟨(t.entries.find? fun entry => entry.1 = e).getD t.first, ?_, rfl⟩
  cases hfound : t.entries.find? fun entry => entry.1 = e with
  | none => exact List.mem_cons_self
  | some entry => exact List.mem_of_find?_eq_some hfound

/-- **What a table reads it writes back exactly if it lists it**: all else turns
into the first value. -/
theorem toJson_fromJson_iff {t : EnumTable E} (hvalues : (t.entries.map Prod.fst).Nodup) (j : Json) :
    t.toJson (t.fromJson j) = j ↔ t.Lists j := by
  constructor
  · intro he
    rw [← he]
    exact t.lists_toJson _
  · rintro ⟨entry, hmem, rfl⟩
    have hread : (t.entries.find? fun other => other.2 = entry.2).isSome := by
      rw [List.find?_isSome]
      exact ⟨entry, hmem, decide_eq_true rfl⟩
    obtain ⟨other, hother⟩ := Option.isSome_iff_exists.mp hread
    have htext : other.2 = entry.2 := by simpa using List.find?_some hother
    have hmemother : other ∈ t.entries := List.mem_of_find?_eq_some hother
    have hvalueRead : t.fromJson (.string entry.2) = other.1 := by
      unfold fromJson
      dsimp only
      rw [hother, Option.getD_some]
    -- the first entry of this value is this one
    have hback : (t.entries.find? fun found => found.1 = other.1).isSome := by
      rw [List.find?_isSome]
      exact ⟨other, hmemother, decide_eq_true rfl⟩
    obtain ⟨found, hfound⟩ := Option.isSome_iff_exists.mp hback
    have hvalue : found.1 = other.1 := by simpa using List.find?_some hfound
    have hsame : found = other :=
      List.inj_on_of_nodup_map hvalues (List.mem_of_find?_eq_some hfound) hmemother hvalue
    unfold toJson
    rw [hvalueRead, hfound, Option.getD_some, hsame, htext]

end EnumTable

end Krapi.Lib
