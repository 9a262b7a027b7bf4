import RuleFilter.Proofs.Binary64.Positional
import RuleFilter.Proofs.Record.Sequence

/-!
Numbered records. Hooks that number fields from one store draw from one sequence for each lead and
field, whatever their widths. Any run of insertions therefore gives the records of one sequence the
numbers after its start, one after the other and each once, and the others do not matter; after the
last value there are only errors, which leave all as it was.
-/

namespace RuleFilter

namespace Hook

variable {lead lead' field field' : String}

section Names

/-- Behind the lead stand digits that are read as the number: as many as its decimal numeral has,
and zeros in front of them where the width asks for more. -/
theorem exists_formatNumber_eq (lead : String) (width n : Nat) : ∃ ds : List Char,
    formatNumber lead width n = lead ++ String.ofList ds ∧
      ds.length = max width (Nat.toDigits 10 n).length ∧ (∀ d ∈ ds, d.isDigit) ∧
      Decimal.natOfDigits ds = n := by
  refine ⟨_, rfl, ?_, ?_, ?_⟩
  · rw [List.length_append, List.length_replicate]
    omega
  · intro d hd
    rcases List.mem_append.1 hd with hzero | hdigit
    · exact Decimal.isDigit_of_mem_replicate_zero hzero
    · exact Nat.isDigit_of_mem_toDigits (by decide) (by decide) hdigit
  · rw [Decimal.natOfDigits_append, Decimal.natOfDigits_replicate_zero, Nat.zero_mul, Nat.zero_add,
      Decimal.natOfDigits, Nat.ofDigitChars_ten_toDigits]

example : formatNumber "INV-" 4 7 = "INV-0007" := by decide

/-- Zeros in front do not hide a number: with one lead, numbers are told apart by their texts even
where the widths differ. -/
theorem eq_of_formatNumber_eq {width width' n m : Nat}
    (h : formatNumber lead width n = formatNumber lead width' m) : n = m := by
  obtain ⟨ds, hds, -, -, hn⟩ := exists_formatNumber_eq lead width n
  obtain ⟨es, hes, -, -, hm⟩ := exists_formatNumber_eq lead width' m
  have heq : ds = es := by
    have htexts := congrArg String.toList (hds.symm.trans (h.trans hes))
    simpa using htexts
  rw [← hn, heq, hm]

end Names

namespace Supply

/-- The value last drawn from the sequence of a lead and a field. -/
def counter (s : Supply) (i : Nat) (lead field : String) : Nat :=
  (s.stores i).current (sequenceName lead field)

/-- The supply after the next value of a sequence is drawn. -/
def advance (s : Supply) (i : Nat) (lead field : String) : Supply :=
  let sequences := Entries.put (s.stores i) (sequenceName lead field) (s.counter i lead field + 1)
  { s with stores := SequenceStores.put s.stores i sequences }

/-- What is drawn from a sequence leaves every other one as it is. -/
theorem counter_advance (s : Supply) (i : Nat) (lead field lead' field' : String) :
    (s.advance i lead' field').counter i lead field =
      if lead' = lead ∧ field' = field then s.counter i lead field + 1
      else s.counter i lead field := by
  split
  · next h =>
    obtain ⟨rfl, rfl⟩ := h
    simp [advance, counter]
  · next h =>
    have hname : sequenceName lead field ≠ sequenceName lead' field' := fun hname =>
      h ((eq_of_sequenceName_eq hname).imp Eq.symm Eq.symm)
    simp [advance, counter, Sequences.current_put_of_ne _ _ hname]

end Supply

/-- The insertion of a record, with a hook that numbers one of its fields. -/
structure Insertion where
  field : String
  lead : String
  width : Nat
  record : Record

namespace Insertion

def run (i : Nat) (c : Insertion) (s : Supply) : Outcome :=
  (Hook.number c.field c.lead c.width (.store i)).run .beforeInsert c.record s

def serves (lead field : String) (c : Insertion) : Bool := c.lead = lead ∧ c.field = field

/-- Whether an insertion needs a number of a sequence. -/
def asks (lead field : String) (c : Insertion) : Bool :=
  c.serves lead field && c.record.lacks field

/-- The value that an insertion has given to its field, which had none before. -/
def written? (c : Insertion) (o : Outcome) : Option Json :=
  if c.record.lacks c.field ∧ ¬ o.record.lacks c.field then Entries.value? o.record c.field
  else none

variable {c : Insertion} {i : Nat} {s : Supply}

theorem asks_iff : c.asks lead field = true ↔
    (c.lead = lead ∧ c.field = field) ∧ c.record.lacks c.field = true := by
  simp only [asks, serves, Bool.and_eq_true, decide_eq_true_eq]
  exact and_congr_right fun h => by rw [h.2]

theorem run_of_present (h : c.record.lacks c.field = false) : c.run i s = ⟨c.record, s, none⟩ := by
  simp [run, Hook.run, assignNumber, h]

theorem run_of_exhausted (h : c.record.lacks c.field = true)
    (hlast : Sequences.last ≤ s.counter i c.lead c.field) :
    c.run i s = ⟨c.record, s, some (.exhausted (sequenceName c.lead c.field))⟩ := by
  have hdraw := Sequences.draw_eq_none_iff.2 hlast
  simp [run, Hook.run, assignNumber, drawNumber, h, hdraw]

theorem run_of_lacks (h : c.record.lacks c.field = true)
    (hlast : s.counter i c.lead c.field < Sequences.last) :
    c.run i s = ⟨Entries.put c.record c.field
      (.string (formatNumber c.lead c.width (s.counter i c.lead c.field + 1))),
      s.advance i c.lead c.field, none⟩ := by
  simp only [Supply.advance, Supply.counter] at hlast ⊢
  simp [run, Hook.run, assignNumber, drawNumber, Sequences.draw, h, hlast]

/-- An insertion moves the counter of a sequence on by one where it asks for a number and there is
one left, and leaves it elsewhere. -/
theorem counter_run (i : Nat) (lead field : String) (c : Insertion) (s : Supply) :
    (c.run i s).supply.counter i lead field =
      if c.asks lead field = true ∧ s.counter i lead field < Sequences.last
      then s.counter i lead field + 1 else s.counter i lead field := by
  cases hlacks : c.record.lacks c.field with
  | false => simp [run_of_present hlacks, asks_iff, hlacks]
  | true =>
    by_cases hlast : s.counter i c.lead c.field < Sequences.last
    · rw [run_of_lacks hlacks hlast, Supply.counter_advance]
      by_cases hkey : c.lead = lead ∧ c.field = field
      · obtain ⟨rfl, rfl⟩ := hkey
        simp [asks_iff, hlacks, hlast]
      · simp [asks_iff, hkey]
    · rw [run_of_exhausted hlacks (Nat.le_of_not_lt hlast)]
      by_cases hkey : c.lead = lead ∧ c.field = field
      · obtain ⟨rfl, rfl⟩ := hkey
        simp [hlast]
      · simp [asks_iff, hkey]

theorem written?_run (i : Nat) (c : Insertion) (s : Supply) : c.written? (c.run i s) =
    if c.record.lacks c.field = true ∧ s.counter i c.lead c.field < Sequences.last
    then some (.string (formatNumber c.lead c.width (s.counter i c.lead c.field + 1)))
    else none := by
  cases hlacks : c.record.lacks c.field with
  | false => simp [written?, hlacks]
  | true =>
    by_cases hlast : s.counter i c.lead c.field < Sequences.last
    · have hgiven (t : String) : Record.lacks (Entries.put c.record c.field (.string t)) c.field =
          false := by simp [Record.lacks]
      simp [run_of_lacks hlacks hlast, written?, hlacks, hlast, hgiven]
    · simp [run_of_exhausted hlacks (Nat.le_of_not_lt hlast), written?, hlacks, hlast]

end Insertion

section Runs

variable {i : Nat} {insertions : List Insertion} {s : Supply}

/-- Insertions one after the other, each with its outcome. -/
def insertAll (i : Nat) : List Insertion → Supply → List (Insertion × Outcome)
  | [], _ => []
  | c :: insertions, s => (c, c.run i s) :: insertAll i insertions (c.run i s).supply

def supplyAfter (i : Nat) (insertions : List Insertion) (s : Supply) : Supply :=
  insertions.foldl (fun s c => (c.run i s).supply) s

/-- The values written by the insertions that serve a lead and a field, in their order. -/
def written (lead field : String) (inserted : List (Insertion × Outcome)) : List Json :=
  (inserted.filter fun p => p.1.serves lead field).filterMap fun p => p.1.written? p.2

/-- The values that insertions take from a sequence between its start and the last value: one each
until none is left. -/
def numbered (lead : String) (start : Nat) (asking : List Insertion) : List Json :=
  (asking.take (Sequences.last - start)).mapIdx fun k c =>
    .string (formatNumber lead c.width (start + (k + 1)))

theorem written_insertAll_cons (lead field : String) (c : Insertion) (insertions : List Insertion)
    (s : Supply) : written lead field (insertAll i (c :: insertions) s) =
      (if c.asks lead field = true ∧ s.counter i lead field < Sequences.last
        then [.string (formatNumber lead c.width (s.counter i lead field + 1))] else []) ++
      written lead field (insertAll i insertions (c.run i s).supply) := by
  rw [insertAll, written, List.filter_cons]
  by_cases hserves : c.lead = lead ∧ c.field = field
  · obtain ⟨rfl, rfl⟩ := hserves
    have hself : c.serves c.lead c.field = true := by simp [Insertion.serves]
    simp only [hself, if_true, List.filterMap_cons, Insertion.written?_run, Insertion.asks_iff,
      and_self, true_and]
    by_cases hgiven : c.record.lacks c.field = true ∧ s.counter i c.lead c.field < Sequences.last
    · rw [if_pos hgiven, if_pos hgiven]
      rfl
    · rw [if_neg hgiven, if_neg hgiven]
      rfl
  · have hother : c.serves lead field = false := by simpa [Insertion.serves] using hserves
    simp only [hother, Bool.false_eq_true, if_false, Insertion.asks_iff, hserves, false_and]
    rfl

theorem numbered_cons (lead : String) {start : Nat} (h : start < Sequences.last) (c : Insertion)
    (asking : List Insertion) : numbered lead start (c :: asking) =
      .string (formatNumber lead c.width (start + 1)) :: numbered lead (start + 1) asking := by
  have htake : Sequences.last - start = Sequences.last - (start + 1) + 1 := by omega
  simp only [numbered, htake, List.take_succ_cons, List.mapIdx_cons, Nat.zero_add]
  simp only [Nat.add_assoc, Nat.add_comm 1]

theorem numbered_of_le (lead : String) {start : Nat} (h : Sequences.last ≤ start)
    (asking : List Insertion) : numbered lead start asking = [] := by
  simp [numbered, Nat.sub_eq_zero_of_le h]

theorem written_insertAll (lead field : String) (insertions : List Insertion) (s : Supply) :
    written lead field (insertAll i insertions s) = numbered lead (s.counter i lead field)
      (insertions.filter (Insertion.asks lead field)) := by
  induction insertions generalizing s with
  | nil => simp [insertAll, written, numbered]
  | cons c insertions ih =>
    rw [written_insertAll_cons, ih, Insertion.counter_run, List.filter_cons]
    by_cases hasks : c.asks lead field = true
    · by_cases hlast : s.counter i lead field < Sequences.last
      · simp [hasks, hlast, numbered_cons lead hlast]
      · simp [hlast, numbered_of_le lead (Nat.le_of_not_lt hlast)]
    · simp [hasks]

theorem counter_supplyAfter (lead field : String) (insertions : List Insertion) (s : Supply) :
    (supplyAfter i insertions s).counter i lead field = s.counter i lead field +
      min (insertions.filter (Insertion.asks lead field)).length
        (Sequences.last - s.counter i lead field) := by
  induction insertions generalizing s with
  | nil => simp [supplyAfter]
  | cons c insertions ih =>
    change (supplyAfter i insertions (c.run i s).supply).counter i lead field = _
    rw [ih, Insertion.counter_run, List.filter_cons]
    by_cases hasks : c.asks lead field = true
    · by_cases hlast : s.counter i lead field < Sequences.last
      · simp only [hasks, hlast, and_self, if_true, List.length_cons]
        omega
      · simp only [hasks, hlast, and_false, if_false, if_true, List.length_cons]
        omega
    · simp [hasks]

theorem nodup_numbered (lead : String) (start : Nat) (asking : List Insertion) :
    (numbered lead start asking).Nodup := by
  refine List.pairwise_iff_getElem.2 fun j k hj hk hlt heq => ?_
  simp only [numbered, List.getElem_mapIdx, Json.string.injEq] at heq
  have hnumber := eq_of_formatNumber_eq heq
  omega

theorem filter_asks_filter_serves (lead field : String) (insertions : List Insertion) :
    (insertions.filter (Insertion.serves lead field)).filter (Insertion.asks lead field) =
      insertions.filter (Insertion.asks lead field) := by
  rw [List.filter_filter]
  exact List.filter_congr fun c _ => by simp [Insertion.asks]; tauto

/-- Whatever is inserted with hooks on one store, each sequence is drawn from without a gap and
without a repetition: the records that lack a number get those after its start in their order, while
there are any, and other sequences play no part. What is inserted next is left alone where it has a
number, gets the next one where it has none, and is refused once the last value has been drawn. -/
theorem written_eq_numbered (i : Nat) (insertions : List Insertion) (s : Supply) :
    let later := supplyAfter i insertions s
    (∀ lead field,
      let start := s.counter i lead field
      let asking := insertions.filter (Insertion.asks lead field)
      let serving := insertions.filter (Insertion.serves lead field)
      let texts := written lead field (insertAll i insertions s)
      texts = numbered lead start asking ∧ texts.Nodup ∧
        later.counter i lead field = start + min asking.length (Sequences.last - start) ∧
        written lead field (insertAll i serving s) = texts ∧
        (supplyAfter i serving s).counter i lead field = later.counter i lead field) ∧
    ∀ c : Insertion,
      let current := later.counter i c.lead c.field
      (c.record.lacks c.field = false → c.run i later = ⟨c.record, later, none⟩) ∧
        (c.record.lacks c.field = true → current < Sequences.last →
          (c.run i later).error = none ∧ (c.run i later).record = Entries.put c.record c.field
            (.string (formatNumber c.lead c.width (current + 1)))) ∧
        (c.record.lacks c.field = true → Sequences.last ≤ current →
          c.run i later =
            ⟨c.record, later, some (.exhausted (sequenceName c.lead c.field))⟩) := by
  intro later
  refine ⟨fun lead field => ?_, fun c => ⟨Insertion.run_of_present, fun h hlast => ?_,
    Insertion.run_of_exhausted⟩⟩
  · intro start asking serving texts
    have htexts : texts = numbered lead start asking := written_insertAll lead field insertions s
    refine ⟨htexts, htexts ▸ nodup_numbered lead start asking,
      counter_supplyAfter lead field insertions s, ?_, ?_⟩
    · rw [htexts, written_insertAll, filter_asks_filter_serves]
    · rw [counter_supplyAfter, counter_supplyAfter, filter_asks_filter_serves]
  · rw [Insertion.run_of_lacks h hlast]
    exact ⟨rfl, rfl⟩

/-- Tickets and an invoice, with two values left in the sequence of the tickets. -/
def tickets : List Insertion :=
  [⟨"number", "TCK-", 6, [("title", "Broken login")]⟩, ⟨"number", "INV-", 4, []⟩,
    ⟨"number", "TCK-", 25, [("number", .null)]⟩, ⟨"number", "TCK-", 6, [("number", "TCK-7")]⟩]

def ticketSupply : Supply :=
  { stores := fun _ => [(sequenceName "TCK-" "number", Sequences.last - 2)]
    identifier := fun _ => "t1" }

theorem written_eq_numbered_tickets :
    let later := supplyAfter 0 tickets ticketSupply
    written "TCK-" "number" (insertAll 0 tickets ticketSupply) =
        (["TCK-18446744073709551614", "TCK-0000018446744073709551615"] : List Json) ∧
      written "INV-" "number" (insertAll 0 tickets ticketSupply) = (["INV-0001"] : List Json) ∧
      Insertion.run 0 ⟨"number", "TCK-", 6, []⟩ later =
        ⟨[], later, some (.exhausted "TCK-:number")⟩ := by
  intro later
  obtain ⟨hwritten, hnext⟩ := written_eq_numbered 0 tickets ticketSupply
  have htickets := (hwritten "TCK-" "number").1
  have hinvoices := (hwritten "INV-" "number").1
  have hlast : Sequences.last ≤ later.counter 0 "TCK-" "number" := by decide
  exact ⟨htickets, hinvoices, (hnext ⟨"number", "TCK-", 6, []⟩).2.2 rfl hlast⟩

end Runs

end Hook

end RuleFilter
