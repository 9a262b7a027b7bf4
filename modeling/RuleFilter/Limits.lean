import RuleFilter.Error

/-! Limits on the filters that are accepted. -/

namespace RuleFilter

structure Limits where
  size : Nat := 65536
  depth : Nat := 32
  conditions : Nat := 50
  deriving DecidableEq

namespace Limits

def of (limits : Limits) : Limit → Nat
  | .size => limits.size
  | .depth => limits.depth
  | .conditions => limits.conditions

/-- Refuses an amount above a limit. -/
def check (limits : Limits) (limit : Limit) (amount : Nat) : Except FilterError Unit :=
  if limits.of limit < amount then .error (.tooLarge limit (limits.of limit)) else .ok ()

theorem check_eq_ok_iff {limits : Limits} {limit : Limit} {amount : Nat} :
    limits.check limit amount = .ok () ↔ amount ≤ limits.of limit := by
  unfold check
  split <;> simp <;> omega

end Limits

end RuleFilter
