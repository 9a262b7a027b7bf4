import RuleFilter.Proofs.Reading.Machine

/-!
What the machine costs. The beginning pays for four calls, each token consumed for three more, and
each call for two steps.
-/

namespace RuleFilter.Reading.Machine

open Grammar

section Costs

variable {s : Stream} {most : Nat}

/-- How many calls may be made before a token is consumed, from a call on and with it. -/
def Call.weight : Call → Nat
  | .value | .list | .comparison => 1
  | .phrase .term _ => 2
  | .phrase (.chain .and) _ => 3
  | .phrase (.chain .or) _ => 4

/-- A call is inside parentheses only if their depth is allowed. -/
def Wait.Allowed (most : Nat) : Wait → Prop
  | .inside depth => depth < most
  | _ => True

/-- A move of a call that began at `start`, made with the cursor at `i`. A call that is done has
consumed something, and one that waits can pay for the call to come out of what it has to spare and
of three for each token that it has moved over. -/
inductive Sound (s : Stream) (most : Nat) (call : Call) (spare start i : Nat) : Move × Nat → Prop
  | wait {w : Wait} {j : Nat} : i ≤ j → j < s.length → w.call = call → w.Allowed most →
      start + 2 * w.rounds ≤ j → w.awaits.weight ≤ spare + 3 * (j - i) →
      Sound s most call spare start i (.wait w, j)
  | done {r : Result} {j : Nat} : i ≤ j → j < s.length → start < j →
      Sound s most call spare start i (.done r, j)
  | fail {e : Failure} {j : Nat} : i ≤ j → j < s.length →
      Sound s most call spare start i (.fail e, j)

variable {call : Call} {spare start i j : Nat} {field : String}

theorem sound_expectThen {e : Expected} {go : Nat → Move × Nat} (hij : i ≤ j) (hj : j < s.length)
    (hgo : j + 1 < s.length → Sound s most call spare start i (go (j + 1))) :
    Sound s most call spare start i (expectThen s e j go) := by
  rw [expectThen]
  split
  · next h =>
    obtain ⟨t, ht, -⟩ := (Option.any_eq_true _ _).1 h
    obtain ⟨hadvance, hlt⟩ := Stream.advance_of_peek hj ht
    rw [hadvance]
    exact hgo hlt
  · exact .fail hij hj

/-- A comparison that waits has read its operator. -/
theorem sound_wait_of_comparison {w : Wait} (hw : w.call = .comparison) (hij : i < j)
    (hj : j < s.length) : Sound s most .comparison spare i i (.wait w, j) := by
  cases w with
  | operand | values | low | high =>
    exact .wait (Nat.le_of_lt hij) hj rfl trivial (Nat.le_of_lt hij)
      (by simp only [Wait.awaits, Call.weight]; omega)
  | item | leaf | inside | member => cases hw

theorem sound_nullTest (hij : i ≤ j) (hj : j < s.length) :
    Sound s most .comparison spare i i (nullTest s field j) := by
  have hnull {op : Operator} {k : Nat} (hik : i ≤ k) (hk : k < s.length) :
      Sound s most .comparison spare i i (nullWord s field op k) :=
    sound_expectThen hik hk fun hlt => .done (Nat.le_succ_of_le hik) hlt (Nat.lt_succ_of_le hik)
  rw [nullTest]
  split
  · exact hnull (Nat.le_trans hij (s.le_advance j)) (Stream.advance_lt hj)
  · exact hnull hij hj

theorem sound_afterWord {k : Keyword} {go : Nat → Move × Nat} (h : afterWord s field k = some go)
    (hij : i < j) (hj : j < s.length) : Sound s most .comparison spare i i (go j) := by
  have hwait {w : Wait} (hw : w.call = .comparison) :
      Sound s most .comparison spare i i (.wait w, j) := sound_wait_of_comparison hw hij hj
  have hthen {k : Keyword} {w : Wait} (hw : w.call = .comparison) :
      Sound s most .comparison spare i i
        (expectThen s (.keyword k) j fun j => (.wait w, j)) :=
    sound_expectThen (Nat.le_of_lt hij) hj fun hlt =>
      sound_wait_of_comparison hw (Nat.lt_succ_of_lt hij) hlt
  cases k with
  | among | contains | startsWith | endsWith | between =>
    cases h
    exact hwait rfl
  | not | starts | ends =>
    cases h
    exact hthen rfl
  | is =>
    cases h
    exact sound_nullTest (Nat.le_of_lt hij) hj
  | and | or | null | true | false | «with» => cases h

theorem sound_test (hij : i < j) (hj : j < s.length) :
    Sound s most .comparison spare i i (test s field j) := by
  have hle := s.le_advance j
  have hlt := Stream.advance_lt hj
  rw [test]
  split
  · exact sound_wait_of_comparison rfl (by omega) hlt
  · split
    · next h =>
      obtain ⟨k, -, hk⟩ := Option.bind_eq_some_iff.1 h
      exact sound_afterWord hk (by omega) hlt
    · exact .fail (by omega) hlt
  · exact .fail (Nat.le_of_lt hij) hj

theorem sound_opening (call : Call) (hi : i < s.length) :
    Sound s most call (call.weight - 1) i i (opening s most call i) := by
  have hle := s.le_advance i
  have hlt := Stream.advance_lt hi
  have hpeek {t : Token} (ht : s.peek i = some t) : s.advance i = i + 1 :=
    (Stream.advance_of_peek hi ht).1
  cases call with
  | value =>
    rw [opening]
    split
    · next h =>
      obtain ⟨t, ht, -⟩ := Option.bind_eq_some_iff.1 h
      exact .done hle hlt (by have := hpeek ht; omega)
    · exact .fail hle hlt
  | list =>
    rw [opening]
    refine sound_expectThen (Nat.le_refl i) hi fun hlt => ?_
    split
    · have := s.le_advance (i + 1)
      exact .done (by omega) (Stream.advance_lt hlt) (by omega)
    · exact .wait (Nat.le_succ i) hlt rfl trivial (by simp [Wait.rounds])
        (by simp [Wait.awaits, Call.weight])
  | comparison =>
    rw [opening]
    split
    · next h =>
      obtain ⟨t, ht, -⟩ := Option.bind_eq_some_iff.1 h
      exact sound_test (by have := hpeek ht; omega) hlt
    · exact .fail hle hlt
  | phrase ph depth =>
    match ph with
    | .term =>
      rw [opening]
      split
      · next h =>
        obtain ⟨t, ht, -⟩ := Option.map_eq_some_iff.1 h
        split
        · next hdepth =>
          have := hpeek ht
          exact .wait hle hlt rfl hdepth (by simpa [Wait.rounds] using hle)
            (by simp [Wait.awaits, Call.weight]; omega)
        · exact .fail hle hlt
      · exact .wait (Nat.le_refl i) hi rfl trivial (by simp [Wait.rounds])
          (by simp [Wait.awaits, Call.weight])
    | .chain k =>
      exact .wait (Nat.le_refl i) hi rfl trivial (by simp [Wait.rounds])
        (by cases k <;> simp [Wait.awaits, Call.weight, members])

/-- A loop that goes round again has consumed what it waited for and what stands in between. -/
theorem sound_resume {w : Wait} {r : Result} {m : Move × Nat} (h : resume s w r j = some m)
    (hw : start + 2 * w.rounds ≤ i) (hij : i < j) (hj : j < s.length) :
    Sound s most w.call 0 start j m := by
  have hle := s.le_advance j
  have hlt := Stream.advance_lt hj
  have hdone {r : Result} : Sound s most w.call 0 start j (.done r, j) :=
    .done (Nat.le_refl j) hj (by omega)
  cases w with
  | item before =>
    cases r with
    | value v =>
      cases h
      split
      · next h =>
        obtain ⟨t, ht, -⟩ := Option.map_eq_some_iff.1 h
        have hadvance := (Stream.advance_of_peek hj ht).1
        refine .wait hle hlt rfl trivial ?_ ?_
        · simp only [Wait.rounds, List.length_append, List.length_singleton] at hw ⊢
          omega
        · simp only [Wait.awaits, Call.weight]
          omega
      · exact .done hle hlt (by omega)
      · exact .fail hle hlt
    | _ => cases h
  | operand | high =>
    cases r with
    | value v =>
      cases h
      exact hdone
    | _ => cases h
  | values =>
    cases r with
    | values vs =>
      cases h
      exact hdone
    | _ => cases h
  | low =>
    cases r with
    | value v =>
      cases h
      refine sound_expectThen (Nat.le_refl j) hj fun hlt => ?_
      exact .wait (Nat.le_succ j) hlt rfl trivial (by simp only [Wait.rounds]; omega)
        (by simp only [Wait.awaits, Call.weight]; omega)
    | _ => cases h
  | leaf =>
    cases r with
    | comparison c =>
      cases h
      exact hdone
    | _ => cases h
  | inside =>
    cases r with
    | rule r =>
      cases h
      exact sound_expectThen (Nat.le_refl j) hj fun hlt => .done (Nat.le_succ j) hlt (by omega)
    | _ => cases h
  | member k depth before =>
    cases r with
    | rule r =>
      cases h
      split
      · next h =>
        obtain ⟨t, ht, -⟩ := (Option.any_eq_true _ _).1 h
        have hadvance := (Stream.advance_of_peek hj ht).1
        refine .wait hle hlt rfl trivial ?_ ?_
        · simp only [Wait.rounds, List.length_append, List.length_singleton] at hw ⊢
          omega
        · cases k <;> simp only [Wait.awaits, Call.weight, members] <;> omega
      · exact hdone
    | _ => cases h

end Costs

section Runs

variable {s : Stream} {most : Nat}

/-- The calls on a stack wait for one that began at a place, each of them for the one above it. -/
inductive Nested (most : Nat) : Call → Nat → List Frame → Prop
  | root : Nested most (.phrase (.chain .or) 0) 0 []
  | frame {w : Wait} {start i : Nat} {stack : List Frame} : Nested most w.call start stack →
      w.Allowed most → start + 2 * w.rounds ≤ i → Nested most w.awaits i (⟨w, start⟩ :: stack)

/-- How many disjunctions are open among a call and those that wait. -/
def disjunctions (call : Call) (stack : List Frame) : Nat :=
  (call :: stack.map fun f => f.wait.call).countP Call.isDisjunction

theorem disjunctions_push (call : Call) (f : Frame) (stack : List Frame) :
    disjunctions call (f :: stack) =
      disjunctions f.wait.call stack + if call.isDisjunction then 1 else 0 := by
  rw [disjunctions, List.map_cons, List.countP_cons]
  rfl

/-- As many disjunctions are open as parentheses, and one more. -/
theorem Nested.disjunctions_le {call : Call} {i : Nat} {stack : List Frame}
    (h : Nested most call i stack) : disjunctions call stack ≤ most + 1 ∧
      ∀ ph depth, call = .phrase ph depth → disjunctions call stack = depth + 1 := by
  induction h with
  | root =>
    refine ⟨by simp [disjunctions, Call.isDisjunction], ?_⟩
    rintro _ _ ⟨⟩
    simp [disjunctions, Call.isDisjunction]
  | @frame w start i stack _ hallowed _ ih =>
    rw [disjunctions_push]
    generalize disjunctions w.call stack = n at ih
    obtain ⟨hmost, hdepth⟩ := ih
    cases w with
    | item | operand | values | low | high | leaf =>
      refine ⟨hmost, ?_⟩
      rintro _ _ ⟨⟩
    | inside depth =>
      obtain rfl := hdepth _ depth rfl
      refine ⟨Nat.succ_le_succ hallowed, ?_⟩
      rintro _ _ ⟨⟩
      rfl
    | member k depth before =>
      obtain rfl := hdepth _ depth rfl
      cases k <;> exact ⟨hmost, by rintro _ _ ⟨⟩; rfl⟩

theorem Nested.rounds {call : Call} {i : Nat} {stack : List Frame} (h : Nested most call i stack) :
    ∀ f ∈ stack, f.start + 2 * f.wait.rounds ≤ i := by
  induction h with
  | root => simp
  | frame _ _ hrounds ih =>
    refine List.forall_mem_cons.2 ⟨hrounds, fun f hf => ?_⟩
    have := ih f hf
    omega

def Task.weight : Task → Nat
  | .enter call => call.weight
  | _ => 0

/-- Steps for what has been entered and has not come back. -/
def Task.steps : Task → Nat
  | .enter _ => 0
  | _ => 1

def Task.Fits (most i : Nat) (stack : List Frame) : Task → Prop
  | .enter call => Nested most call i stack
  | .leave call start _ => Nested most call start stack ∧ start < i
  | .failed _ => ∃ call start, Nested most call start stack ∧ start ≤ i

/-- What holds of a configuration after a number of steps. Each call takes two steps, one that
enters it and one that goes on after it. -/
structure Valid (s : Stream) (most n : Nat) (c : Config) : Prop where
  within : c.cursor < s.length
  fits : c.task.Fits most c.cursor c.stack
  budget : c.calls + 3 * (s.length - 1 - c.cursor) + c.task.weight ≤ 3 * s.length + 1
  steps : n + c.stack.length + c.task.steps = 2 * c.calls

theorem valid_settle {call : Call} {spare start i n calls : Nat} {stack : List Frame}
    {m : Move × Nat} (hnested : Nested most call start stack)
    (h : Sound s most call spare start i m) (hstart : start ≤ i)
    (hbudget : calls + 3 * (s.length - 1 - i) + spare ≤ 3 * s.length + 1)
    (hsteps : n + stack.length + 1 = 2 * calls) :
    Valid s most n (settle call start calls stack m) ∧
      i ≤ (settle call start calls stack m).cursor := by
  cases h with
  | @wait w j hij hj hcall hallowed hrounds hweight =>
    subst hcall
    refine ⟨⟨hj, .frame hnested hallowed hrounds, ?_, ?_⟩, hij⟩
    · simp only [settle, Task.weight]
      omega
    · simp only [settle, Task.steps, List.length_cons]
      omega
  | @done r j hij hj hlt =>
    refine ⟨⟨hj, ⟨hnested, hlt⟩, ?_, hsteps⟩, hij⟩
    simp only [settle, Task.weight]
    omega
  | @fail e j hij hj =>
    refine ⟨⟨hj, ⟨call, start, hnested, Nat.le_trans hstart hij⟩, ?_, hsteps⟩, hij⟩
    simp only [settle, Task.weight]
    omega

theorem Call.weight_pos (call : Call) : 0 < call.weight := by
  rcases call with _ | _ | _ | ⟨_ | _ | _, _⟩ <;> simp [Call.weight]

theorem valid_initial (s : Stream) : Valid s most 0 initial := by
  have hpos := s.length_pos
  refine ⟨hpos, .root, ?_, rfl⟩
  simp only [initial, Task.weight, Call.weight]
  omega

theorem valid_step {n : Nat} {c d : Config} (h : Valid s most n c)
    (hstep : step s most c = some d) : Valid s most (n + 1) d ∧ c.cursor ≤ d.cursor := by
  obtain ⟨i, calls, task, stack⟩ := c
  obtain ⟨hwithin, hfits, hbudget, hsteps⟩ := h
  dsimp only at hwithin hfits hbudget hsteps ⊢
  cases task with
  | enter call =>
    cases hstep
    have hweight := call.weight_pos
    refine valid_settle hfits (sound_opening call hwithin) (Nat.le_refl i) ?_ ?_
    · simp only [Task.weight] at hbudget
      omega
    · simp only [Task.steps] at hsteps
      omega
  | leave call start r =>
    cases stack with
    | nil => cases hstep
    | cons f stack =>
      obtain ⟨m, hm, rfl⟩ := Option.map_eq_some_iff.1 hstep
      obtain ⟨hnested, hlt⟩ := hfits
      cases hnested with
      | frame hnested _ hrounds =>
        refine valid_settle hnested (sound_resume hm hrounds hlt hwithin) ?_ hbudget ?_
        · dsimp only
          omega
        · simp only [Task.steps, List.length_cons] at hsteps
          omega
  | failed e => cases hstep

theorem valid_of_exec {n : Nat} {c : Config} (h : Exec s most initial n c) :
    Valid s most n c := by
  induction h with
  | refl => exact valid_initial s
  | succ _ hstep ih => exact (valid_step ih hstep).1

/-- What holds of every configuration that a run comes to after a number of steps. The cursor stays
before the end and never goes back, what has been read has consumed something, and so has each round
of a loop that waits. -/
structure Bounded (s : Stream) (most n : Nat) (c : Config) : Prop where
  within : c.cursor < s.length
  forward : ∀ d, step s most c = some d → c.cursor ≤ d.cursor
  consumed : ∀ call start r, c.task = .leave call start r → start < c.cursor
  rounds : ∀ f ∈ c.stack, f.start + 2 * f.wait.rounds ≤ c.cursor
  depth : c.openCalls.countP Call.isDisjunction ≤ most + 1
  calls : c.calls ≤ 3 * s.length + 1
  steps : n ≤ 2 * c.calls

theorem Task.Fits.exists_nested {task : Task} {i : Nat} {stack : List Frame}
    (h : task.Fits most i stack) : ∃ call start, Nested most call start stack ∧ start ≤ i := by
  cases task with
  | enter call => exact ⟨call, i, h, Nat.le_refl i⟩
  | leave call start r => exact ⟨call, start, h.1, Nat.le_of_lt h.2⟩
  | failed e => exact h

theorem bounded_of_valid {n : Nat} {c : Config} (h : Valid s most n c) : Bounded s most n c where
  within := h.within
  forward _ hstep := (valid_step h hstep).2
  consumed call start r hr := by
    have hfits := h.fits
    rw [hr] at hfits
    exact hfits.2
  rounds f hf := by
    obtain ⟨call, start, hnested, hstart⟩ := h.fits.exists_nested
    exact Nat.le_trans (hnested.rounds f hf) hstart
  depth := by
    have hfits := h.fits
    obtain ⟨i, calls, task, stack⟩ := c
    cases task with
    | enter call => exact hfits.disjunctions_le.1
    | leave call start r => exact hfits.1.disjunctions_le.1
    | failed e =>
      obtain ⟨call, start, hnested, -⟩ := hfits
      refine Nat.le_trans ?_ hnested.disjunctions_le.1
      exact (List.sublist_cons_self _ _).countP_le
  calls := by
    have := h.budget
    omega
  steps := by
    have := h.steps
    omega

end Runs

end RuleFilter.Reading.Machine
