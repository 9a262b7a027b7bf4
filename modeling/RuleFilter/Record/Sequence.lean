import RuleFilter.Entries

/-! Named sequences of numbers, in one store or several. A sequence that nobody has started stands
at zero. -/

namespace RuleFilter

/-- The last value drawn from each sequence. -/
abbrev Sequences := Entries Nat

namespace Sequences

/-- Values fit 64 bits. -/
def last : Nat := UInt64.size - 1

def current (s : Sequences) (name : String) : Nat := (Entries.value? s name).getD 0

/-- The next value of a sequence, and the sequences after it is drawn; none once the last value has
been drawn. -/
def draw (s : Sequences) (name : String) : Option (Nat × Sequences) :=
  if s.current name < last then some (s.current name + 1, Entries.put s name (s.current name + 1))
  else none

@[simp] theorem current_put_self (s : Sequences) (name : String) (n : Nat) :
    current (Entries.put s name n) name = n := by simp [current]

theorem current_put_of_ne (s : Sequences) {name other : String} (n : Nat) (h : other ≠ name) :
    current (Entries.put s name n) other = s.current other := by
  simp [current, Entries.value?_put_of_ne s n h]

theorem draw_eq_none_iff {s : Sequences} {name : String} :
    s.draw name = none ↔ last ≤ s.current name := by
  unfold draw
  split <;> simp <;> omega

end Sequences

/-- Stores of sequences that know nothing of one another. -/
abbrev SequenceStores := Nat → Sequences

namespace SequenceStores

def put (stores : SequenceStores) (i : Nat) (s : Sequences) : SequenceStores :=
  fun j => if j = i then s else stores j

@[simp] theorem put_self (stores : SequenceStores) (i : Nat) (s : Sequences) :
    put stores i s i = s := by simp [put]

theorem put_of_ne (stores : SequenceStores) {i j : Nat} (s : Sequences) (h : j ≠ i) :
    put stores i s j = stores j := by simp [put, h]

end SequenceStores

end RuleFilter
