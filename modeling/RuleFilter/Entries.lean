/-!
Entries: values under names, in the order in which the names first came. A name that comes again
keeps its place and takes the new value.
-/

namespace RuleFilter

abbrev Entries (α : Type) := List (String × α)

namespace Entries

variable {α : Type}

def names (es : Entries α) : List String := es.map Prod.fst

def value? : Entries α → String → Option α
  | [], _ => none
  | (k, v) :: es, name => if k = name then some v else value? es name

def put : Entries α → String → α → Entries α
  | [], name, v => [(name, v)]
  | (k, w) :: es, name, v => if k = name then (k, v) :: es else (k, w) :: put es name v

/-- Puts a value only where the name is missing. -/
def putNew (es : Entries α) (name : String) (v : α) : Entries α :=
  match es.value? name with
  | some _ => es
  | none => es.put name v

/-- Puts every entry of the second list, in its order. -/
def putAll (es fs : Entries α) : Entries α := fs.foldl (fun es (k, v) => es.put k v) es

/-- The entries of a list in which names may repeat. -/
def ofList (es : List (String × α)) : Entries α := putAll [] es

@[simp] theorem value?_nil (name : String) : value? ([] : Entries α) name = none := rfl

@[simp] theorem value?_put_self (es : Entries α) (name : String) (v : α) :
    (es.put name v).value? name = some v := by
  fun_induction put es name v <;> simp_all [value?]

theorem value?_put_of_ne (es : Entries α) {name other : String} (v : α) (h : other ≠ name) :
    (es.put name v).value? other = es.value? other := by
  fun_induction put es name v <;> simp_all [value?, Ne.symm h]

/-- A value put where it already is changes nothing. -/
theorem put_of_value? {es : Entries α} {name : String} {v : α} (h : es.value? name = some v) :
    es.put name v = es := by
  fun_induction put es name v <;> simp_all [value?]

theorem value?_eq_none_iff {es : Entries α} {name : String} :
    es.value? name = none ↔ name ∉ es.names := by
  fun_induction value? es name <;> simp_all [names, eq_comm]

theorem names_put (es : Entries α) (name : String) (v : α) :
    (es.put name v).names = if name ∈ es.names then es.names else es.names ++ [name] := by
  induction es with
  | nil => simp [put, names]
  | cons e es ih =>
    obtain ⟨k, w⟩ := e
    by_cases h : k = name
    · simp [put, names, h]
    · simp only [names, put, h, if_false, List.map_cons, List.mem_cons, Ne.symm h, false_or] at ih ⊢
      rw [ih]
      split <;> simp_all

@[simp] theorem putAll_nil (es : Entries α) : es.putAll [] = es := rfl

@[simp] theorem putAll_cons (es : Entries α) (k : String) (v : α) (fs : Entries α) :
    es.putAll ((k, v) :: fs) = (es.put k v).putAll fs := rfl

end Entries

end RuleFilter
