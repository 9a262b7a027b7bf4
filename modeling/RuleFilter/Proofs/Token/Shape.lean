import RuleFilter.Proofs.Text.Class
import RuleFilter.Token

/-!
What scanning can make. Words have the form of words, the signs are those of operators that take one
value, and there is no more than one token for each character.
-/

namespace RuleFilter

/-- Whether filter text can spell the lexeme. -/
def Lexeme.WellFormed : Lexeme → Prop
  | .word s => Text.isWord s.toList
  | .compare op => op.shape = .single
  | _ => True

namespace Token

variable {c : Char} {cs rest : List Char} {l : Lexeme} {ts : List Token}

theorem wellFormed_of_mark? (h : mark? c = some l) : l.WellFormed := by
  unfold mark? at h
  split at h <;> cases h <;> exact trivial

theorem shape_of_comparison? {op : Operator} (h : comparison? cs = some (op, rest)) :
    op.shape = .single := by
  unfold comparison? at h
  split at h <;> cases h <;> rfl

theorem wellFormed_of_next (h : next c cs = .ok (l, rest)) : l.WellFormed := by
  unfold next at h
  split at h
  · next hm =>
    cases h
    exact wellFormed_of_mark? hm
  · split at h
    · next hop =>
      cases h
      exact shape_of_comparison? hop
    · split at h
      · cases h
      · split at h
        · split at h <;> cases h
          exact trivial
        · split at h
          · dsimp only at h
            split at h <;> cases h
            exact trivial
          · split at h
            · next hstart =>
              cases h
              have hparts : (cs.takeWhile Text.isFieldPart).all Text.isFieldPart :=
                List.all_takeWhile
              simp [Lexeme.WellFormed, Text.isWord, hstart, hparts]
            · cases h

theorem wellFormed_of_scan (h : scan cs = .ok ts) : ∀ t ∈ ts, t.lexeme.WellFormed := by
  fun_induction scan cs generalizing ts with
  | case1 => cases h; simp
  | case2 => cases h
  | case3 => cases h
  | case4 _ _ _ _ _ _ hl us hus ih =>
    cases h
    exact List.forall_mem_cons.2 ⟨wellFormed_of_next hl, ih hus⟩

theorem length_le_of_scan (h : scan cs = .ok ts) : ts.length ≤ cs.length := by
  fun_induction scan cs generalizing ts with
  | case1 => cases h; simp
  | case2 => cases h
  | case3 => cases h
  | case4 cs _ _ hcs _ _ hl us hus ih =>
    cases h
    have htrim : (Text.trimStart cs).length ≤ cs.length := (List.dropWhile_suffix _).length_le
    have hnext := next_length hl
    have hrest := ih hus
    rw [hcs, List.length_cons] at htrim
    rw [List.length_cons]
    omega

end Token

end RuleFilter
