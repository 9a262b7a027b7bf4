import Mathlib.Data.List.Basic

/-!
Replacing a character. Characters that get a backslash before them one after the other get it in one
pass as well, if the backslash itself is the first of them.
-/

namespace RuleFilter.Text

/-- Puts a text in the place of every occurrence of a character. -/
def replaceChar (c : Char) (text cs : List Char) : List Char :=
  cs.flatMap fun d => if d = c then text else [d]

theorem replaceChar_escape (d : Char) (cs : List Char) :
    replaceChar d ['\\', d] cs = cs.flatMap fun c => if c = d then ['\\', c] else [c] := by
  refine List.flatMap_congr fun c _ => ?_
  split
  · next h => rw [h]
  · rfl

/-- The backslashes that are there already stay as they are. -/
theorem replaceChar_flatMap_escape {p : Char → Prop} [DecidablePred p] {d : Char} (hd : d ≠ '\\')
    (hp : ¬ p d) (cs : List Char) :
    replaceChar d ['\\', d] (cs.flatMap fun c => if p c then ['\\', c] else [c]) =
      cs.flatMap fun c => if p c ∨ c = d then ['\\', c] else [c] := by
  rw [replaceChar, List.flatMap_assoc]
  refine List.flatMap_congr fun c _ => ?_
  by_cases hescape : p c
  · have hne : c ≠ d := fun h => hp (h ▸ hescape)
    simp [hescape, hne, hd.symm]
  · by_cases hc : c = d
    · simp [hc, hp]
    · simp [hescape, hc]

end RuleFilter.Text
