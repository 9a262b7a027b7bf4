import Mathlib.Data.List.Lattice
import RuleFilter.Proofs.Record.Filled
import RuleFilter.Proofs.Record.Numbered

/-!
Hooks that are independent of one another. What a hook does when a record is inserted depends on the
fields that it touches, on its own sequence and on the identifier that it is given, and it changes
nothing else. Two hooks that touch different fields draw from different sequences as well, so that
each finds the same whether the other has run before it or not, and their order does not matter.
-/

namespace RuleFilter

namespace Record

variable {r r' values : Record} {field name : String} {v : Json}

theorem lacks_congr (h : Entries.value? r field = Entries.value? r' field) :
    r.lacks field = r'.lacks field := by
  rw [lacks, lacks, h]

theorem value?_fill_of_ne (r : Record) (v : Json) (h : name ≠ field) :
    Entries.value? (r.fill field v) name = Entries.value? r name := by
  rw [fill]
  split
  · exact Entries.value?_put_of_ne r v h
  · rfl

/-- What a field holds after a fill depends on what it held, and on no other field. -/
theorem value?_fill_congr (h : Entries.value? r name = Entries.value? r' name) :
    Entries.value? (r.fill field v) name = Entries.value? (r'.fill field v) name := by
  by_cases hname : name = field
  · subst hname
    rw [fill, fill, lacks_congr h]
    split
    · rw [Entries.value?_put_self, Entries.value?_put_self]
    · exact h
  · rw [value?_fill_of_ne r v hname, value?_fill_of_ne r' v hname, h]

end Record

namespace Hook

variable {hook first second : Hook} {fields fields' : List String} {r r' values : Record}
  {s s' : Supply} {name sequence : String} {i : Nat}

/-- The hooks that look at some fields of a record alone, and write to no others, when the record is
inserted. Numbers and default values from outside are left out, since these may depend on
anything. -/
inductive Touches : Hook → List String → Prop where
  | identifier (field : String) : Touches (.identifier field) [field]
  | number (field lead : String) (width i : Nat) :
    Touches (.number field lead width (.store i)) [field]
  | defaults (entity : String) (values : Record) :
    Touches (.defaults entity (.fixed values)) (Entries.names values)
  | htmlSafe (fields : List String) : Touches (.htmlSafe fields) fields

/-- The store and the name of the sequence that a hook draws from. -/
def sequence? : Hook → Option (Nat × String)
  | .number field lead _ (.store i) => some (i, sequenceName lead field)
  | _ => none

def Supply.next (s : Supply) : String := s.identifier s.drawn

/-- A hook finds the same in two places: the values under its fields, the counter of its sequence
and, where it puts an identifier, the one that it is given. -/
structure FindsSame (hook : Hook) (fields : List String) (r : Record) (s : Supply) (r' : Record)
    (s' : Supply) : Prop where
  value : ∀ name ∈ fields, Entries.value? r name = Entries.value? r' name
  counter : ∀ i sequence, hook.sequence? = some (i, sequence) →
    (s.stores i).current sequence = (s'.stores i).current sequence
  next : ∀ field, hook = .identifier field → r.lacks field = true → s.next = s'.next

theorem value?_putDefaults_of_notMem (h : name ∉ Entries.names values) (r : Record) :
    Entries.value? (putDefaults values r) name = Entries.value? r name := by
  induction values generalizing r with
  | nil => rfl
  | cons value values ih =>
    obtain ⟨hname, hnames⟩ := not_or.1 (List.mem_cons.not.1 h)
    rw [putDefaults_cons, ih hnames, Record.value?_fill_of_ne r value.2 hname]

theorem value?_putDefaults_congr (h : Entries.value? r name = Entries.value? r' name) :
    Entries.value? (putDefaults values r) name = Entries.value? (putDefaults values r') name := by
  induction values generalizing r r' with
  | nil => exact h
  | cons value values ih => exact ih (Record.value?_fill_congr h)

theorem run_number (field lead : String) (width i : Nat) (r : Record) (s : Supply) :
    (Hook.number field lead width (.store i)).run .beforeInsert r s =
      if r.lacks field = true then
        if s.counter i lead field < Sequences.last then
          ⟨Entries.put r field (.string (formatNumber lead width (s.counter i lead field + 1))),
            s.advance i lead field, none⟩
        else ⟨r, s, some (.exhausted (sequenceName lead field))⟩
      else ⟨r, s, none⟩ := by
  split
  · next hlacks =>
    split
    · next hlast => exact Insertion.run_of_lacks (c := ⟨field, lead, width, r⟩) hlacks hlast
    · next hlast =>
      have hlast' := Nat.le_of_not_lt hlast
      exact Insertion.run_of_exhausted (c := ⟨field, lead, width, r⟩) hlacks hlast'
  · next hlacks =>
    exact Insertion.run_of_present (c := ⟨field, lead, width, r⟩) (Bool.eq_false_iff.2 hlacks)

/-- A hook leaves the fields that it does not touch. -/
theorem value?_run_of_notMem (h : hook.Touches fields) (hname : name ∉ fields) :
    Entries.value? (hook.run .beforeInsert r s).record name = Entries.value? r name := by
  cases h with
  | identifier field =>
    rw [run, record_drawIdentifier]
    exact Record.value?_fill_of_ne r _ (List.mem_singleton.not.1 hname)
  | number field lead width i =>
    rw [run_number]
    have hput (v : Json) := Entries.value?_put_of_ne r v (List.mem_singleton.not.1 hname)
    split
    · split
      · exact hput _
      · rfl
    · rfl
  | defaults entity values => exact value?_putDefaults_of_notMem hname r
  | htmlSafe fields =>
    rw [run_htmlSafe (by decide), escapeFields_eq, value?_foldl_escapeField,
      List.count_eq_zero_of_not_mem fun h => hname (List.takeWhile_subset _ h)]
    exact Option.map_id_apply

/-- A hook leaves the sequences that it does not draw from. -/
theorem current_run_of_ne (h : hook.Touches fields) (hne : hook.sequence? ≠ some (i, sequence)) :
    ((hook.run .beforeInsert r s).supply.stores i).current sequence =
      (s.stores i).current sequence := by
  cases h with
  | identifier field =>
    rw [run, drawIdentifier]
    split <;> rfl
  | number field lead width j =>
    rw [run_number]
    split
    · split
      · rw [Supply.advance]
        by_cases hi : i = j
        · subst hi
          have hname : sequence ≠ sequenceName lead field := by
            rintro rfl
            exact hne rfl
          simp [Sequences.current_put_of_ne _ _ hname]
        · simp [SequenceStores.put_of_ne _ _ hi]
      · rfl
    · rfl
  | defaults | htmlSafe => rfl

theorem refusal?_congr (h : Entries.value? r name = Entries.value? r' name) :
    refusal? r name = refusal? r' name := by
  rw [refusal?, refusal?, h]

section Congr

-- The hook runs in two places where it finds the same.
variable (h : hook.Touches fields) (hsame : hook.FindsSame fields r s r' s')
include h hsame

theorem error_run_congr :
    (hook.run .beforeInsert r s).error = (hook.run .beforeInsert r' s').error := by
  cases h with
  | identifier field => rw [run, run, error_drawIdentifier, error_drawIdentifier]
  | number field lead width i =>
    have hlacks := Record.lacks_congr (hsame.value field List.mem_cons_self)
    have hcounter : s.counter i lead field = s'.counter i lead field := hsame.counter i _ rfl
    rw [run_number, run_number, hlacks, hcounter]
    split
    · split <;> rfl
    · rfl
  | defaults => rfl
  | htmlSafe fields =>
    have hrefusal : ∀ name ∈ fields, refusal? r name = refusal? r' name := fun name hname =>
      refusal?_congr (hsame.value name hname)
    rw [run_htmlSafe (by decide), run_htmlSafe (by decide), escapeFields_eq, escapeFields_eq,
      ← List.head?_filterMap, ← List.head?_filterMap, List.filterMap_congr hrefusal]

theorem value?_run_congr (hok : (hook.run .beforeInsert r s).error = none) (hname : name ∈ fields) :
    Entries.value? (hook.run .beforeInsert r s).record name =
      Entries.value? (hook.run .beforeInsert r' s').record name := by
  have hvalue := hsame.value name hname
  cases h with
  | identifier field =>
    obtain rfl := List.mem_singleton.1 hname
    rw [run, run, drawIdentifier, drawIdentifier, ← Record.lacks_congr hvalue]
    split
    · next hlacks =>
      have hnext : s.identifier s.drawn = s'.identifier s'.drawn := hsame.next name rfl hlacks
      rw [Entries.value?_put_self, Entries.value?_put_self, hnext]
    · exact hvalue
  | number field lead width i =>
    obtain rfl := List.mem_singleton.1 hname
    have hcounter : s.counter i lead name = s'.counter i lead name := hsame.counter i _ rfl
    rw [run_number, run_number, Record.lacks_congr hvalue, hcounter]
    split
    · split
      · rw [Entries.value?_put_self, Entries.value?_put_self]
      · exact hvalue
    · exact hvalue
  | defaults entity values => exact value?_putDefaults_congr hvalue
  | htmlSafe fields =>
    have hok' := (error_run_congr (.htmlSafe fields) hsame).symm.trans hok
    rw [run_htmlSafe (by decide)] at hok hok'
    rw [run_htmlSafe (by decide), run_htmlSafe (by decide), escapeFields_of_ok hok,
      escapeFields_of_ok hok', value?_foldl_escapeField, value?_foldl_escapeField, hvalue]

theorem current_run_congr (hsequence : hook.sequence? = some (i, sequence)) :
    ((hook.run .beforeInsert r s).supply.stores i).current sequence =
      ((hook.run .beforeInsert r' s').supply.stores i).current sequence := by
  have hcurrent := hsame.counter i sequence hsequence
  cases h with
  | number field lead width j =>
    obtain ⟨rfl, rfl⟩ := Prod.mk.inj (Option.some.inj hsequence)
    have hcounter : s.counter j lead field = s'.counter j lead field := hcurrent
    have hadvance (s : Supply) : ((s.advance j lead field).stores j).current
        (sequenceName lead field) = s.counter j lead field + 1 :=
      (s.counter_advance j lead field lead field).trans (if_pos ⟨rfl, rfl⟩)
    rw [run_number, run_number, Record.lacks_congr (hsame.value field List.mem_cons_self), hcounter]
    split
    · split
      · rw [hadvance, hadvance, hcounter]
      · exact hcurrent
    · exact hcurrent
  | identifier | defaults | htmlSafe => cases hsequence

end Congr

theorem exists_of_sequence? (h : hook.Touches fields)
    (hsequence : hook.sequence? = some (i, sequence)) :
    ∃ lead, ∃ field ∈ fields, sequence = sequenceName lead field := by
  cases h with
  | number field lead width j =>
    obtain ⟨-, rfl⟩ := Prod.mk.inj (Option.some.inj hsequence)
    exact ⟨lead, field, List.mem_cons_self, rfl⟩
  | identifier | defaults | htmlSafe => cases hsequence

section Pair

-- Two hooks that touch different fields.
variable (hfirst : first.Touches fields) (hsecond : second.Touches fields')
  (hdisjoint : fields.Disjoint fields')
include hfirst hsecond hdisjoint

/-- Sequences of different fields are different, also in one store. -/
theorem sequence?_ne (hsequence : second.sequence? = some (i, sequence)) :
    first.sequence? ≠ some (i, sequence) := by
  intro h
  obtain ⟨lead, field, hfield, rfl⟩ := exists_of_sequence? hfirst h
  obtain ⟨lead', field', hfield', hname⟩ := exists_of_sequence? hsecond hsequence
  rw [(eq_of_sequenceName_eq hname).2] at hfield
  exact hdisjoint hfield hfield'

theorem findsSame_after (hstores : s'.stores = s.stores) (hnext : ∀ field,
      second = .identifier field → r.lacks field = true →
        (first.run .beforeInsert r s).supply.next = s'.next) :
    second.FindsSame fields' (first.run .beforeInsert r s).record
      (first.run .beforeInsert r s).supply r s' := by
  have hvalue : ∀ name ∈ fields', Entries.value? (first.run .beforeInsert r s).record name =
      Entries.value? r name := fun name hname =>
    value?_run_of_notMem hfirst fun h => hdisjoint h hname
  refine ⟨hvalue, fun i sequence h => ?_, fun field h hlacks => ?_⟩
  · rw [current_run_of_ne hfirst (sequence?_ne hfirst hsecond hdisjoint h), hstores]
  · subst h
    obtain ⟨⟩ := hsecond
    rw [Record.lacks_congr (hvalue field List.mem_cons_self)] at hlacks
    exact hnext field rfl hlacks

end Pair

/-- Both orders of two hooks start from the same sequences, and a hook that puts an identifier is
given the same one in both. -/
structure SameDraws (first second : Hook) (r : Record) (s s' : Supply) : Prop where
  stores : s'.stores = s.stores
  next_first : ∀ field, first = .identifier field → r.lacks field = true →
    (second.run .beforeInsert r s').supply.next = s.next
  next_second : ∀ field, second = .identifier field → r.lacks field = true →
    (first.run .beforeInsert r s).supply.next = s'.next

theorem next_run_of_ne (h : hook.Touches fields) (hne : ∀ field, hook ≠ .identifier field) :
    (hook.run .beforeInsert r s).supply.next = s.next := by
  cases h with
  | identifier field => exact absurd rfl (hne field)
  | number field lead width i =>
    rw [run_number]
    split
    · split <;> rfl
    · rfl
  | defaults | htmlSafe => rfl

/-- One supply serves both orders unless both hooks put identifiers. -/
theorem sameDraws_self (hfirst : first.Touches fields) (hsecond : second.Touches fields')
    (h : ∀ field, first = .identifier field → ∀ field', second ≠ .identifier field') (r : Record)
    (s : Supply) : SameDraws first second r s s where
  stores := rfl
  next_first := fun field hfield _ => next_run_of_ne hsecond (h field hfield)
  next_second := fun field' hfield' _ =>
    next_run_of_ne hfirst fun field hfield => h field hfield field' hfield'

def givenInTurn (identifiers : List String) : Supply :=
  { identifier := fun n => identifiers.getD n "" }

/-- Where both put identifiers, each is given its own if they come in the other order too. -/
example : SameDraws (.identifier "id") (.identifier "key") [] (givenInTurn ["u1", "u2"])
    (givenInTurn ["u2", "u1"]) where
  stores := rfl
  next_first := fun _ _ _ => rfl
  next_second := fun _ _ _ => rfl

namespace Chain

theorem run_singleton (point : Point) (hook : Hook) (r : Record) (s : Supply) :
    Chain.run point [hook] r s = hook.run point r s := by
  cases h : (hook.run point r s).error with
  | none =>
    rw [run_cons_of_ok h, Chain.run, ← h]
  | some e => exact run_cons_of_error h []

theorem run_pair_of_ok {point : Point} (h : (first.run point r s).error = none) :
    Chain.run point [first, second] r s =
      second.run point (first.run point r s).record (first.run point r s).supply := by
  rw [run_cons_of_ok h, run_singleton]

/-- Two hooks that touch different fields can be put in either order: if a record passes them in
one, it passes them in the other, with the same values under all names and the same counters. -/
theorem run_swap_of_disjoint (hfirst : first.Touches fields) (hsecond : second.Touches fields')
    (hdisjoint : fields.Disjoint fields') (hdraws : SameDraws first second r s s') :
    let o := Chain.run .beforeInsert [first, second] r s
    let o' := Chain.run .beforeInsert [second, first] r s'
    o.error = none → o'.error = none ∧
      (∀ name, Entries.value? o'.record name = Entries.value? o.record name) ∧
      ∀ i sequence,
        (o'.supply.stores i).current sequence = (o.supply.stores i).current sequence := by
  intro o o' hok
  have hdisjoint' := hdisjoint.symm
  have hsame := findsSame_after (r := r) hfirst hsecond hdisjoint hdraws.stores
    hdraws.next_second
  have hsame' := findsSame_after (r := r) hsecond hfirst hdisjoint' hdraws.stores.symm
    hdraws.next_first
  have hfirst_ok := error_of_run_cons hok
  have ho : o = _ := run_pair_of_ok hfirst_ok
  rw [ho] at hok ⊢
  -- The second hook does in front what it did behind, and so the first finds what it found.
  have hsecond_ok := (error_run_congr hsecond hsame).symm.trans hok
  have hlast_ok := (error_run_congr hfirst hsame').trans hfirst_ok
  have ho' : o' = _ := run_pair_of_ok hsecond_ok
  rw [ho']
  refine ⟨hlast_ok, fun name => ?_, fun i sequence => ?_⟩
  · by_cases hname : name ∈ fields
    · rw [value?_run_congr hfirst hsame' hlast_ok hname,
        value?_run_of_notMem hsecond (hdisjoint hname)]
    · rw [value?_run_of_notMem hfirst hname]
      by_cases hname' : name ∈ fields'
      · exact (value?_run_congr hsecond hsame hok hname').symm
      · rw [value?_run_of_notMem hsecond hname', value?_run_of_notMem hsecond hname',
          value?_run_of_notMem hfirst hname]
  · by_cases hsequence : first.sequence? = some (i, sequence)
    · have hother := sequence?_ne hsecond hfirst hdisjoint' hsequence
      rw [current_run_congr hfirst hsame' hsequence, current_run_of_ne hsecond hother]
    · rw [current_run_of_ne hfirst hsequence]
      by_cases hsequence' : second.sequence? = some (i, sequence)
      · exact (current_run_congr hsecond hsame hsequence').symm
      · rw [current_run_of_ne hsecond hsequence', current_run_of_ne hsecond hsequence',
          current_run_of_ne hfirst hsequence, hdraws.stores]

/-- A shipment without its two numbers, whose sequences only differ in where a colon is escaped. -/
def shipment : Record := [("title", "<i>"), ("b", .null)]

theorem run_swap_of_disjoint_shipment :
    let first := Hook.number "b" "A:" 2 (.store 0)
    let second := Hook.number ":b" "A" 0 (.store 0)
    let s := givenInTurn []
    let o := Chain.run .beforeInsert [first, second] shipment s
    let o' := Chain.run .beforeInsert [second, first] shipment s
    (o.error = none ∧ o.record =
        ([("title", "<i>"), ("b", "A:01"), (":b", "A1")] : Record)) ∧
      (o'.error = none ∧
        (∀ name, Entries.value? o'.record name = Entries.value? o.record name) ∧
        ∀ i sequence,
          (o'.supply.stores i).current sequence = (o.supply.stores i).current sequence) := by
  refine ⟨⟨rfl, rfl⟩, ?_⟩
  have hfirst : (Hook.number "b" "A:" 2 (.store 0)).Touches ["b"] := .number "b" "A:" 2 0
  have hsecond : (Hook.number ":b" "A" 0 (.store 0)).Touches [":b"] := .number ":b" "A" 0 0
  have hdraws := sameDraws_self hfirst hsecond (fun field h => nomatch h) shipment (givenInTurn [])
  exact run_swap_of_disjoint hfirst hsecond (by simp) hdraws rfl

end Chain

end Hook

end RuleFilter
