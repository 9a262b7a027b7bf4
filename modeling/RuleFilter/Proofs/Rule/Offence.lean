import RuleFilter.Proofs.Rule.Encoding

/-!
Where payloads are refused. The path of the error leads through the groups of the payload to a rule
and names what that rule lacks or has malformed, and all that stands in front of this place is in
order.
-/

namespace RuleFilter

/-- The rule to which indices lead, each of them from a group to one of its rules. -/
def Json.ruleAt? : List Nat → Json → Option Json
  | [], v => some v
  | i :: path, v =>
    ((v.member? "rules").bind Json.array?).bind fun items => items[i]?.bind fun w => ruleAt? path w

namespace Payload

section Parts

def HasCombinator (members : Json.Members) : Prop :=
  ∃ s k, members.value? "combinator" = some (.string s) ∧ Text.sameWord s (Combinator.name k)

def HasField (members : Json.Members) : Prop :=
  ∃ s, members.value? "field" = some (.string s) ∧ Text.isFieldName s

def HasOperator (members : Json.Members) (op : Operator) : Prop :=
  members.value? "op" = some (.string op.name)

/-- The value member is not what the operator takes, whatever its items are. -/
inductive Misshapen : Shape → Option Json → Prop
  | needless {v : Json} : v ≠ .null → Misshapen .none (some v)
  | missing : Misshapen .single none
  | compound {v : Json} : (∀ u, ¬ IsScalar v u) → Misshapen .single (some v)
  | list {v : Option Json} : (∀ items, v ≠ some (.array items)) → Misshapen .list v
  | range {v : Option Json} : (∀ low high, v ≠ some (.array [low, high])) → Misshapen .range v

/-- The value member is an array of as many items as the operator takes. -/
inductive Listing : Shape → List Json → Prop
  | list (items : List Json) : Listing .list items
  | range (low high : Json) : Listing .range [low, high]

/-- Up to this item, which is no scalar, the items are scalars. -/
structure FirstCompound (items : List Json) (j : Nat) : Prop where
  compound : ∃ v, items[j]? = some v ∧ ∀ u, ¬ IsScalar v u
  before : ∀ i < j, ∀ v, items[i]? = some v → ∃ u, IsScalar v u

/-- The part of a rule that is missing or malformed, where the parts checked before it are in
order. -/
inductive Offends : Json → String → Prop
  | notAnObject {v : Json} : (∀ members, v ≠ .object members) → Offends v ""
  | combinator {members : Json.Members} : members.value? "rules" ≠ none →
      ¬ HasCombinator members → Offends (.object members) ".combinator"
  | rules {members : Json.Members} {v : Json} : members.value? "rules" = some v →
      HasCombinator members → (∀ items, v = .array items → items = []) →
      Offends (.object members) ".rules"
  | field {members : Json.Members} : members.value? "rules" = none → ¬ HasField members →
      Offends (.object members) ".field"
  | operator {members : Json.Members} : members.value? "rules" = none → HasField members →
      (∀ op, ¬ HasOperator members op) → Offends (.object members) ".op"
  | value {members : Json.Members} {op : Operator} : members.value? "rules" = none →
      HasField members → HasOperator members op → Misshapen op.shape (members.value? "value") →
      Offends (.object members) ".value"
  | item {members : Json.Members} {op : Operator} {items : List Json} {j : Nat} :
      members.value? "rules" = none → HasField members → HasOperator members op →
      members.value? "value" = some (.array items) → Listing op.shape items →
      FirstCompound items j → Offends (.object members) (".value[" ++ toString j ++ "]")

/-- The error is about a part of the rule at the end of the indices. -/
def Concerns (rules : List Nat) (part : PayloadPart) (e : FilterError) : Prop :=
  ∃ fault, e = .badPayload ⟨rules, part⟩ fault

variable {rules : List Nat} {part : PayloadPart} {members : Json.Members} {e : FilterError}

theorem concerns_of_fail {α : Type} {fault : PayloadFault}
    (h : (fail rules part fault : Except FilterError α) = .error e) : Concerns rules part e :=
  ⟨fault, (Except.error.inj h).symm⟩

theorem offends_combinator (h : decodeCombinator rules members = .error e) :
    Concerns rules .combinator e ∧ ¬ HasCombinator members := by
  constructor
  · unfold decodeCombinator at h
    split at h
    · exact concerns_of_fail h
    · split at h
      · cases h
      · split at h
        · cases h
        · exact concerns_of_fail h
  · rintro ⟨s, k, hs⟩
    rw [decodeCombinator_eq_ok_iff.2 ⟨s, hs⟩] at h
    cases h

theorem offends_rules {v : Json} (h : decodeRules rules v = .error e) :
    Concerns rules .rules e ∧ ∀ items, v = .array items → items = [] := by
  constructor
  · unfold decodeRules at h
    split at h
    · exact concerns_of_fail h
    · cases h
    · exact concerns_of_fail h
  · rintro items rfl
    by_contra hne
    rw [decodeRules_eq_ok_iff.2 ⟨rfl, hne⟩] at h
    cases h

theorem offends_field (h : decodeField rules members = .error e) :
    Concerns rules .field e ∧ ¬ HasField members := by
  constructor
  · unfold decodeField at h
    split at h
    · exact concerns_of_fail h
    · split at h
      · exact concerns_of_fail h
      · split at h
        · cases h
        · exact concerns_of_fail h
  · rintro ⟨s, hs⟩
    rw [decodeField_eq_ok_iff.2 hs] at h
    cases h

theorem offends_operator (h : decodeOperator rules members = .error e) :
    Concerns rules .operator e ∧ ∀ op, ¬ HasOperator members op := by
  constructor
  · unfold decodeOperator at h
    split at h
    · exact concerns_of_fail h
    · split at h
      · cases h
      · exact concerns_of_fail h
  · intro op hop
    rw [decodeOperator_eq_ok_iff.2 hop] at h
    cases h

theorem offends_value {v : Json} (h : decodeValue rules part v = .error e) :
    Concerns rules part e ∧ ∀ u, ¬ IsScalar v u := by
  constructor
  · revert h
    fun_cases decodeValue rules part v with
    | case1 | case2 | case4 | case5 | case6 =>
      intro h
      cases h
    | case3 | case7 | case8 => exact concerns_of_fail
  · intro u hu
    rw [decodeValue_eq_ok_iff.2 hu] at h
    cases h

end Parts

section Items

variable {α : Type} {decode : Nat → Json → Except FilterError α} {i : Nat} {vs : List Json}
  {as : List α} {e : FilterError}

theorem decodeItems_cons_eq_error_iff {v : Json} : decodeItems decode i (v :: vs) = .error e ↔
    decode i v = .error e ∨ ∃ a, decode i v = .ok a ∧ decodeItems decode (i + 1) vs = .error e := by
  simp [decodeItems, bind_eq_error_iff, Functor.map, except_map_eq_error_iff]

/-- Items are refused for the first of them that is. -/
theorem decodeItems_error (h : decodeItems decode i vs = .error e) : ∃ j v, vs[j]? = some v ∧
    decode (i + j) v = .error e ∧
      ∀ k < j, ∀ w, vs[k]? = some w → ∃ a, decode (i + k) w = .ok a := by
  induction vs generalizing i with
  | nil => cases h
  | cons v vs ih =>
    obtain hv | ⟨a, ha, hmore⟩ := decodeItems_cons_eq_error_iff.1 h
    · exact ⟨0, v, rfl, hv, fun k hk => absurd hk (Nat.not_lt_zero k)⟩
    · obtain ⟨j, w, hj, hw, hbefore⟩ := ih hmore
      refine ⟨j + 1, w, by simpa using hj, by rwa [Nat.add_right_comm] at hw, fun k hk u hu => ?_⟩
      cases k with
      | zero =>
        obtain rfl : v = u := by simpa using hu
        exact ⟨a, ha⟩
      | succ k =>
        have hu' := hbefore k (Nat.lt_of_succ_lt_succ hk) u (by simpa using hu)
        rwa [Nat.add_right_comm] at hu'

theorem exists_of_decodeItems (h : decodeItems decode i vs = .ok as) {j : Nat} {v : Json}
    (hj : vs[j]? = some v) : ∃ a, decode (i + j) v = .ok a := by
  induction vs generalizing i j as with
  | nil => simp at hj
  | cons w vs ih =>
    obtain ⟨a, as', ha, has, rfl⟩ := decodeItems_cons_eq_ok_iff.1 h
    cases j with
    | zero =>
      obtain rfl : w = v := by simpa using hj
      exact ⟨a, ha⟩
    | succ j =>
      have hv := ih has (by simpa using hj)
      rwa [Nat.add_right_comm] at hv

end Items

section Operands

variable {rules : List Nat} {members : Json.Members} {e : FilterError}

theorem offends_item {op : Operator} {items : List Json} {j : Nat} {v : Json}
    (hop : Listing op.shape items) (hj : items[j]? = some v)
    (hv : decodeValue rules (.item j) v = .error e)
    (hbefore : ∀ k < j, ∀ w, items[k]? = some w → ∃ u, decodeValue rules (.item k) w = .ok u) :
    ∃ items' j, some (Json.array items) = some (.array items') ∧ Listing op.shape items' ∧
      Concerns rules (.item j) e ∧ FirstCompound items' j := by
  obtain ⟨hconcerns, hcompound⟩ := offends_value hv
  refine ⟨items, j, rfl, hop, hconcerns, ⟨v, hj, hcompound⟩, fun k hk w hw => ?_⟩
  obtain ⟨u, hu⟩ := hbefore k hk w hw
  exact ⟨u, decodeValue_eq_ok_iff.1 hu⟩

theorem offends_operand {op : Operator} {x : Option Json}
    (h : decodeOperand rules op x = .error e) :
    Concerns rules .value e ∧ Misshapen op.shape x ∨ ∃ items j, x = some (.array items) ∧
      Listing op.shape items ∧ Concerns rules (.item j) e ∧ FirstCompound items j := by
  unfold decodeOperand at h
  split at h
  · cases h
  · cases h
  · next v hnull hshape =>
    exact .inl ⟨concerns_of_fail h, hshape ▸ .needless hnull⟩
  · next v hshape =>
    obtain ⟨hconcerns, hcompound⟩ := offends_value (except_map_eq_error_iff.1 h)
    exact .inl ⟨hconcerns, hshape ▸ .compound hcompound⟩
  · next hshape => exact .inl ⟨concerns_of_fail h, hshape ▸ .missing⟩
  · next items hshape =>
    obtain ⟨j, v, hj, hv, hbefore⟩ := decodeItems_error (except_map_eq_error_iff.1 h)
    rw [Nat.zero_add] at hv
    refine .inr (offends_item (hshape ▸ .list items) hj hv fun k hk w hw => ?_)
    simpa using hbefore k hk w hw
  · next hshape hlist => exact .inl ⟨concerns_of_fail h, hshape ▸ .list hlist⟩
  · next low high hshape =>
    have hitems : Listing op.shape [low, high] := hshape ▸ .range low high
    obtain hlow | ⟨u, hu, hhigh⟩ := bind_eq_error_iff.1 h
    · exact .inr (offends_item hitems (j := 0) rfl hlow fun k hk => absurd hk (Nat.not_lt_zero k))
    · obtain hhigh | ⟨_, _, hreturn⟩ := bind_eq_error_iff.1 hhigh
      · refine .inr (offends_item hitems (j := 1) rfl hhigh fun k hk w hw => ?_)
        obtain rfl : k = 0 := Nat.lt_one_iff.1 hk
        obtain rfl : low = w := by simpa using hw
        exact ⟨u, hu⟩
      · cases hreturn
  · next hshape hrange => exact .inl ⟨concerns_of_fail h, hshape ▸ .range hrange⟩

theorem offends_comparison (hrules : members.value? "rules" = none)
    (h : decodeComparison rules members = .error e) :
    ∃ part, Concerns rules part e ∧ Offends (.object members) part.text := by
  obtain hfield | ⟨s, hs, h⟩ := bind_eq_error_iff.1 h
  · obtain ⟨hconcerns, hfield⟩ := offends_field hfield
    exact ⟨.field, hconcerns, .field hrules hfield⟩
  · have hfield : HasField members := ⟨s, decodeField_eq_ok_iff.1 hs⟩
    obtain hop | ⟨op, hop, h⟩ := bind_eq_error_iff.1 h
    · obtain ⟨hconcerns, hop⟩ := offends_operator hop
      exact ⟨.operator, hconcerns, .operator hrules hfield hop⟩
    · have hop : HasOperator members op := decodeOperator_eq_ok_iff.1 hop
      obtain hvalue | ⟨_, _, hreturn⟩ := bind_eq_error_iff.1 h
      · obtain ⟨hconcerns, hvalue⟩ | ⟨items, j, hitems, hlisting, hconcerns, hfirst⟩ :=
          offends_operand hvalue
        · exact ⟨.value, hconcerns, .value hrules hfield hop hvalue⟩
        · exact ⟨.item j, hconcerns, .item hrules hfield hop hitems hlisting hfirst⟩
      · cases hreturn

end Operands

section Rules

variable {limits : Limits} {n : Nat} {rules path : List Nat} {v w : Json} {r : Rule}

theorem ruleAt?_cons_eq_some_iff {i : Nat} : v.ruleAt? (i :: path) = some w ↔
    ∃ (members : Json.Members) (items : List Json) (u : Json), v = .object members ∧
      members.value? "rules" = some (.array items) ∧ items[i]? = some u ∧
        u.ruleAt? path = some w := by
  have harray {x : Option Json} {items : List Json} :
      x.bind Json.array? = some items ↔ x = some (.array items) := by
    cases x with
    | none => simp
    | some v => cases v <;> simp [Json.array?]
  rw [Json.ruleAt?]
  simp only [Option.bind_eq_some_iff, harray]
  cases v with
  | object members => simp [Json.member?]
  | _ => simp [Json.member?]

/-- What a group has that is decoded up to its rules. -/
theorem decode_object_of_rules {members : Json.Members} {items : List Json}
    (hrules : members.value? "rules" = some (.array items))
    (h : decode limits n rules (.object members) = .ok r) : ∃ m children, n = m + 1 ∧
      decodeItems (fun i v => decode limits m (rules ++ [i]) v) 0 items = .ok children := by
  obtain ⟨_, hobject, ⟨hnone, -⟩ | ⟨w, _, items', m, children, hw, -, hitems, hn, hchildren, -⟩⟩ :=
    decode_eq_ok_iff.1 h
  · cases hobject
    rw [hrules] at hnone
    cases hnone
  · cases hobject
    obtain ⟨rfl, -⟩ := decodeRules_eq_ok_iff.1 hitems
    cases hrules.symm.trans hw
    exact ⟨m, children, hn, hchildren⟩

/-- Each rule of a payload that is decoded is decoded at its place. -/
theorem decode_of_ruleAt? (h : decode limits n rules v = .ok r) (hw : v.ruleAt? path = some w) :
    ∃ r, decode limits (n - path.length) (rules ++ path) w = .ok r := by
  induction path generalizing n rules v r with
  | nil =>
    cases hw
    exact ⟨r, by simpa using h⟩
  | cons i path ih =>
    obtain ⟨members, items, u, rfl, hitems, hu, hw⟩ := ruleAt?_cons_eq_some_iff.1 hw
    obtain ⟨m, children, rfl, hchildren⟩ := decode_object_of_rules hitems h
    obtain ⟨r', hr'⟩ := exists_of_decodeItems hchildren hu
    rw [Nat.zero_add] at hr'
    simpa using ih hr' hw

/-- The path leads to the first rule of the payload that cannot be decoded where it stands: it
offends by itself, the groups around it have combinators, and the rules in front of it are
decoded. -/
structure Reaches (limits : Limits) (n : Nat) (rules : List Nat) (v : Json) (path : List Nat)
    (suffix : String) : Prop where
  length_le : path.length ≤ n
  offends : ∃ w, v.ruleAt? path = some w ∧ Offends w suffix
  around : ∀ p i q, path = p ++ i :: q →
    ∃ members : Json.Members, v.ruleAt? p = some (.object members) ∧ HasCombinator members
  before : ∀ p i j q q' w, path = p ++ j :: q' → i < j → v.ruleAt? (p ++ i :: q) = some w →
    ∃ r, decode limits (n - (p ++ i :: q).length) (rules ++ (p ++ i :: q)) w = .ok r

theorem Reaches.nil {suffix : String} (h : Offends v suffix) :
    Reaches limits n rules v [] suffix where
  length_le := Nat.zero_le n
  offends := ⟨v, rfl, h⟩
  around p i q hpath := by cases p <;> cases hpath
  before p i j q q' w hpath := by cases p <;> cases hpath

theorem Reaches.cons {members : Json.Members} {items : List Json} {i : Nat} {u : Json}
    {suffix : String} (h : Reaches limits n (rules ++ [i]) u path suffix)
    (hcombinator : HasCombinator members)
    (hitems : members.value? "rules" = some (.array items)) (hu : items[i]? = some u)
    (hbefore : ∀ k < i, ∀ w, items[k]? = some w →
      ∃ r, decode limits n (rules ++ [k]) w = .ok r) :
    Reaches limits (n + 1) rules (.object members) (i :: path) suffix where
  length_le := Nat.succ_le_succ h.length_le
  offends := by
    obtain ⟨w, hw, hoffends⟩ := h.offends
    exact ⟨w, ruleAt?_cons_eq_some_iff.2 ⟨members, items, u, rfl, hitems, hu, hw⟩, hoffends⟩
  around p k q hpath := by
    cases p with
    | nil => exact ⟨members, rfl, hcombinator⟩
    | cons k' p =>
      obtain ⟨rfl, hpath'⟩ := List.cons.inj hpath
      obtain ⟨members', hmembers', hcombinator'⟩ := h.around p k q hpath'
      exact ⟨members', ruleAt?_cons_eq_some_iff.2 ⟨members, items, u, rfl, hitems, hu, hmembers'⟩,
        hcombinator'⟩
  before p k j q q' w hpath hk hw := by
    have hinside {k : Nat} {p : List Nat} (hw : (Json.object members).ruleAt? (k :: p) = some w) :
        ∃ u, items[k]? = some u ∧ u.ruleAt? p = some w := by
      obtain ⟨members', items', u, hobject, hitems', hu, hw⟩ := ruleAt?_cons_eq_some_iff.1 hw
      cases hobject
      cases hitems.symm.trans hitems'
      exact ⟨u, hu, hw⟩
    cases p with
    | nil =>
      obtain ⟨rfl, -⟩ := List.cons.inj hpath
      obtain ⟨u', hu', hw⟩ := hinside hw
      obtain ⟨r, hr⟩ := hbefore k hk u' hu'
      simpa using decode_of_ruleAt? hr hw
    | cons k' p =>
      obtain ⟨rfl, hpath'⟩ := List.cons.inj hpath
      obtain ⟨u', hu', hw⟩ := hinside hw
      obtain rfl : u = u' := Option.some.inj (hu.symm.trans hu')
      simpa using h.before p k j q q' w hpath' hk hw

theorem reaches_here {part : PayloadPart} {place : PayloadPath} {fault : PayloadFault}
    (hconcerns : Concerns rules part (.badPayload place fault)) (h : Offends v part.text) :
    ∃ path part, place = ⟨rules ++ path, part⟩ ∧ Reaches limits n rules v path part.text := by
  obtain ⟨_, heq⟩ := hconcerns
  cases heq
  exact ⟨[], part, by simp, .nil h⟩

theorem reaches_of_decode {n : Nat} {rules : List Nat} {v : Json} {place : PayloadPath}
    {fault : PayloadFault} (h : decode limits n rules v = .error (.badPayload place fault)) :
    ∃ path part, place = ⟨rules ++ path, part⟩ ∧ Reaches limits n rules v path part.text := by
  cases v with
  | object members =>
    cases hrules : Entries.value? members "rules" with
    | none =>
      simp only [decode, hrules] at h
      obtain ⟨part, hconcerns, hoffends⟩ :=
        offends_comparison hrules (except_map_eq_error_iff.1 h)
      exact reaches_here hconcerns hoffends
    | some x =>
      have hne : Entries.value? members "rules" ≠ none := by simp [hrules]
      simp only [decode, hrules] at h
      obtain hcombinator | ⟨k, hk, hgroup⟩ := bind_eq_error_iff.1 h
      · obtain ⟨hconcerns, hcombinator⟩ := offends_combinator hcombinator
        exact reaches_here hconcerns (.combinator hne hcombinator)
      · obtain ⟨s, hs⟩ := decodeCombinator_eq_ok_iff.1 hk
        have hcombinator : HasCombinator members := ⟨s, k, hs⟩
        obtain hitems | ⟨items, hitems, hmembers⟩ := bind_eq_error_iff.1 hgroup
        · obtain ⟨hconcerns, hempty⟩ := offends_rules hitems
          exact reaches_here hconcerns (.rules hrules hcombinator hempty)
        · obtain ⟨rfl, -⟩ := decodeRules_eq_ok_iff.1 hitems
          clear h hgroup
          cases n with
          | zero => cases hmembers
          | succ n =>
            obtain hchildren | ⟨_, _, hreturn⟩ := bind_eq_error_iff.1 hmembers
            · obtain ⟨j, u, hu, hfail, hbefore⟩ := decodeItems_error hchildren
              simp only [Nat.zero_add] at hfail hbefore
              obtain ⟨path, part, hplace, hreaches⟩ := reaches_of_decode hfail
              exact ⟨j :: path, part, by simpa using hplace,
                hreaches.cons hcombinator hrules hu hbefore⟩
            · cases hreturn
  | _ =>
    simp only [decode] at h
    have hconcerns : Concerns rules .whole (.badPayload place fault) := concerns_of_fail h
    exact reaches_here hconcerns (.notAnObject (by simp))
termination_by n

end Rules

end Payload

namespace Rule

open Payload

variable {limits : Limits} {v : Json} {place : PayloadPath} {fault : PayloadFault}

theorem decode_of_ofJson_error (h : ofJson limits v = .error (.badPayload place fault)) :
    decode limits limits.depth [] v = .error (.badPayload place fault) := by
  obtain hdecode | ⟨r, -, hlimit⟩ := bind_eq_error_iff.1 h
  · exact hdecode
  · obtain hcheck | ⟨_, _, hreturn⟩ := bind_eq_error_iff.1 hlimit
    · unfold Limits.check at hcheck
      split at hcheck <;> cases hcheck
    · cases hreturn

/-- Where a payload is refused for what it has at a place, the path leads by indices to a rule of
the payload and names the part of it that is missing or malformed. The groups around that rule have
their combinators, and each rule before it is decoded at its place. -/
theorem ofJson_error_at_first_offence (h : ofJson limits v = .error (.badPayload place fault)) :
    ∃ w suffix,
      place.text = "$" ++ String.join (place.rules.map fun i => ".rules[" ++ toString i ++ "]") ++
        suffix ∧
      v.ruleAt? place.rules = some w ∧ Offends w suffix ∧
      (∀ p i q, place.rules = p ++ i :: q → ∃ members : Json.Members,
        v.ruleAt? p = some (.object members) ∧ HasCombinator members) ∧
      ∀ p i j q q' u, place.rules = p ++ j :: q' → i < j → v.ruleAt? (p ++ i :: q) = some u →
        ∃ r, decode limits (limits.depth - (p ++ i :: q).length) (p ++ i :: q) u = .ok r := by
  obtain ⟨path, part, rfl, hreaches⟩ := reaches_of_decode (decode_of_ofJson_error h)
  obtain ⟨w, hw, hoffends⟩ := hreaches.offends
  exact ⟨w, part.text, rfl, hw, hoffends, hreaches.around, hreaches.before⟩

/-- The second item of a list in the last rule of an inner group is refused, and all of the outer
group's first rule is decoded. -/
theorem ofJson_error_at_first_offence_item :
    let first : Json := .object [("rules", .array [.object [("field", "a"), ("op", "isNull")]]),
      ("combinator", "or")]
    let last : Json := .object [("field", "c"), ("op", "in"), ("value", .array ["x", .array []])]
    let inner : Json := .object [("combinator", "And"), ("rules", .array
      [.object [("field", "b"), ("op", "eq"), ("value", "y")], last])]
    let v : Json := .object [("combinator", "or"), ("rules", .array [first, inner])]
    let place : PayloadPath := ⟨[1, 1], .item 1⟩
    ofJson ⟨9, 9, 9⟩ v = .error (.badPayload place .notAScalar) ∧
      (∃ suffix, place.text = "$.rules[1].rules[1]" ++ suffix ∧ Offends last suffix) ∧
      ∃ r, decode ⟨9, 9, 9⟩ 7 [0, 0] (.object [("field", "a"), ("op", "isNull")]) = .ok r := by
  intro first last inner v place
  have herror : ofJson ⟨9, 9, 9⟩ v = .error (.badPayload place .notAScalar) := by rfl
  obtain ⟨w, suffix, htext, hw, hoffends, -, hbefore⟩ := ofJson_error_at_first_offence herror
  cases hw
  exact ⟨herror, ⟨suffix, htext, hoffends⟩, hbefore [] 0 1 [0] [1] _ rfl Nat.zero_lt_one rfl⟩

end Rule

end RuleFilter
