import Mathlib.Data.List.Nodup
import RuleFilter.Entries

/-!
Entries by what was written into them: under each name the last value that was put, or the first one
where a value only goes to a name that is missing, and the names in the order in which they first
came. Entries in which no name repeats are told apart by their names and values.
-/

namespace RuleFilter.Entries

variable {α : Type}

theorem value?_append (es fs : Entries α) (name : String) :
    value? (es ++ fs) name = (value? es name).or (value? fs name) := by
  induction es with
  | nil => rfl
  | cons e es ih =>
    obtain ⟨k, v⟩ := e
    rw [List.cons_append, value?, value?, ih]
    split <;> rfl

theorem value?_map {β : Type} (f : α → β) (es : Entries α) (name : String) :
    value? (es.map fun e => (e.1, f e.2)) name = (value? es name).map f := by
  induction es with
  | nil => rfl
  | cons e es ih =>
    rw [List.map_cons, value?, value?, ih]
    split <;> rfl

theorem value?_put (es : Entries α) (k : String) (v : α) (name : String) :
    (es.put k v).value? name = (value? [(k, v)] name).or (es.value? name) := by
  rw [value?, value?_nil]
  by_cases hname : name = k
  · subst hname
    rw [value?_put_self, if_pos rfl, Option.some_or]
  · rw [value?_put_of_ne es v hname, if_neg (Ne.symm hname), Option.none_or]

theorem value?_putAll (es fs : Entries α) (name : String) :
    (es.putAll fs).value? name = (value? fs.reverse name).or (es.value? name) := by
  induction fs generalizing es with
  | nil => rfl
  | cons f fs ih =>
    obtain ⟨k, v⟩ := f
    rw [putAll_cons, ih, value?_put, List.reverse_cons, value?_append, Option.or_assoc]

theorem value?_putNew (es : Entries α) (k : String) (v : α) (name : String) :
    (es.putNew k v).value? name = (es.value? name).or (value? [(k, v)] name) := by
  rw [putNew]
  by_cases hname : name = k
  · subst hname
    split
    · next hsome => simp [hsome]
    · next hnone => simp [hnone, value?]
  · have hother : value? [(k, v)] name = none := by simp [value?, Ne.symm hname]
    rw [hother, Option.or_none]
    split
    · rfl
    · exact value?_put_of_ne es v hname

theorem mem_names_of_value? {es : Entries α} {name : String} {v : α}
    (h : es.value? name = some v) : name ∈ es.names := by
  by_contra hname
  rw [value?_eq_none_iff.2 hname] at h
  cases h

/-- New names come after those that are there. -/
theorem names_prefix_put (es : Entries α) (name : String) (v : α) :
    es.names <+: (es.put name v).names := by
  rw [names_put]
  split
  · exact List.prefix_rfl
  · exact List.prefix_append _ _

theorem names_prefix_putAll (es fs : Entries α) : es.names <+: (es.putAll fs).names := by
  induction fs generalizing es with
  | nil => exact List.prefix_rfl
  | cons f fs ih => exact (names_prefix_put es f.1 f.2).trans (ih _)

/-- Values put where they already are change nothing. -/
theorem putAll_of_value? {es fs : Entries α} (h : ∀ f ∈ fs, es.value? f.1 = some f.2) :
    es.putAll fs = es := by
  induction fs with
  | nil => rfl
  | cons f fs ih =>
    rw [List.forall_mem_cons] at h
    rw [putAll_cons, put_of_value? h.1]
    exact ih h.2

/-- One more name counts only if it has not come before. -/
theorem eraseDups_concat (names : List String) (name : String) :
    (names ++ [name]).eraseDups =
      if name ∈ names then names.eraseDups else names.eraseDups ++ [name] := by
  rw [List.eraseDups_append, List.removeAll, List.filter_singleton]
  by_cases hmem : name ∈ names
  · rw [if_pos hmem, List.elem_eq_true_of_mem hmem]
    exact List.append_nil _
  · rw [if_neg hmem, Bool.eq_false_iff.2 (mt List.mem_of_elem_eq_true hmem)]
    rfl

section Written

-- `written` are the names written so far, each as often as it was written.
variable {es : Entries α} {written : List String} (h : es.names = written.eraseDups)
include h

theorem names_put_written (name : String) (v : α) :
    (es.put name v).names = (written ++ [name]).eraseDups := by
  rw [names_put, h, eraseDups_concat]
  simp only [List.mem_eraseDups]

theorem names_putAll_written (fs : Entries α) :
    (es.putAll fs).names = (written ++ fs.names).eraseDups := by
  induction fs generalizing es written with
  | nil =>
    rw [putAll_nil, h]
    exact congrArg _ (List.append_nil _).symm
  | cons f fs ih =>
    rw [putAll_cons, ih (names_put_written h f.1 f.2), List.append_assoc]
    rfl

theorem names_putNew_written (name : String) (v : α) :
    (es.putNew name v).names = (written ++ [name]).eraseDups := by
  rw [putNew]
  split
  · next w hw =>
    have hmem := mem_names_of_value? hw
    rw [h, List.mem_eraseDups] at hmem
    rw [h, eraseDups_concat, if_pos hmem]
  · exact names_put_written h name v

end Written

section Distinct

variable {es fs : Entries α} {name : String}

/-- Entries in which no name repeats are known by their names and the values under them. -/
theorem ext_of_nodup (hnodup : es.names.Nodup) (hnames : fs.names = es.names)
    (hvalue : ∀ name, fs.value? name = es.value? name) : fs = es := by
  induction es generalizing fs with
  | nil => exact List.map_eq_nil_iff.1 hnames
  | cons e es ih =>
    obtain ⟨k, v⟩ := e
    obtain ⟨hk, hes⟩ := List.nodup_cons.1 hnodup
    cases fs with
    | nil => cases hnames
    | cons e fs =>
      obtain ⟨k', v'⟩ := e
      obtain ⟨rfl, hfs⟩ := List.cons_eq_cons.1 hnames
      have hfirst := hvalue k'
      rw [value?, value?, if_pos rfl, if_pos rfl, Option.some.injEq] at hfirst
      have hrest : fs = es := by
        refine ih hes hfs fun name => ?_
        by_cases hname : k' = name
        · subst hname
          rw [value?_eq_none_iff.2 hk, value?_eq_none_iff, names, hfs]
          exact hk
        · have hother := hvalue name
          rwa [value?, value?, if_neg hname, if_neg hname] at hother
      rw [hfirst, hrest]

theorem nodup_names_put (h : es.names.Nodup) (name : String) (v : α) :
    (es.put name v).names.Nodup := by
  rw [names_put]
  split
  · exact h
  · next hname => simpa using h.concat hname

theorem nodup_names_putAll (h : es.names.Nodup) (fs : Entries α) : (es.putAll fs).names.Nodup := by
  induction fs generalizing es with
  | nil => exact h
  | cons f fs ih => exact ih (nodup_names_put h f.1 f.2)

theorem nodup_names_putNew (h : es.names.Nodup) (name : String) (v : α) :
    (es.putNew name v).names.Nodup := by
  rw [putNew]
  split
  · exact h
  · exact nodup_names_put h name v

theorem names_put_of_mem (h : name ∈ es.names) (v : α) :
    (es.put name v).names = es.names := by
  rw [names_put, if_pos h]

theorem names_putAll_of_subset (h : fs.names ⊆ es.names) : (es.putAll fs).names = es.names := by
  induction fs generalizing es with
  | nil => rfl
  | cons f fs ih =>
    obtain ⟨k, v⟩ := f
    obtain ⟨hk, hfs⟩ := List.cons_subset.1 h
    have hput := names_put_of_mem hk v
    rw [putAll_cons, ih (hput ▸ hfs), hput]

theorem putNew_of_mem (h : name ∈ es.names) (v : α) : es.putNew name v = es := by
  rw [putNew]
  split
  · rfl
  · next hnone => exact absurd h (value?_eq_none_iff.1 hnone)

theorem put_of_notMem (h : name ∉ es.names) (v : α) : es.put name v = es ++ [(name, v)] := by
  induction es with
  | nil => rfl
  | cons e es ih =>
    obtain ⟨k, w⟩ := e
    obtain ⟨hk, hes⟩ := not_or.1 (List.mem_cons.not.1 h)
    rw [put, if_neg (Ne.symm hk), ih hes, List.cons_append]

theorem putAll_of_nodup (h : (names (es ++ fs)).Nodup) : es.putAll fs = es ++ fs := by
  induction fs generalizing es with
  | nil => exact (List.append_nil es).symm
  | cons f fs ih =>
    obtain ⟨k, v⟩ := f
    rw [List.append_cons] at h
    have hk : k ∉ es.names := by
      have hfirst : (names (es ++ [(k, v)])).Nodup := by
        rw [names, List.map_append] at h
        exact h.of_append_left
      rw [names, List.map_append, List.nodup_append_comm] at hfirst
      exact (List.nodup_cons.1 hfirst).1
    rw [putAll_cons, put_of_notMem hk, ih h, List.append_assoc, List.singleton_append]

/-- Entries in which no name repeats are those of themselves as a list. -/
theorem ofList_of_nodup (h : es.names.Nodup) : ofList es = es :=
  putAll_of_nodup ((List.nil_append es).symm ▸ h)

end Distinct

end RuleFilter.Entries
