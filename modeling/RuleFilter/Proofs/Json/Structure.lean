import Mathlib.Data.List.Nodup
import RuleFilter.Json.Structure

/-!
The parts of a document. Once it is known to have the parts of its layout, each of them is what its
name leads to, in an object among the members and in an array by the place of the name.
-/

namespace RuleFilter.Json.Written

/-- The parts of a document by name, without the members whose names are no text. -/
def named (layout : Layout) : Written → Entries Written
  | .object members => members.filterMap fun (k, v) => (textOf k).map (·, v)
  | .array items => (layout.map Prod.fst).zip items
  | _ => []

/-- What is there and not null. -/
def present? : Option Written → Option Written
  | some .null => none
  | v => v

variable {layout : Layout} {members : List (String × Written)} {name : String}

theorem map_eq_map_some_of_mapM {α β : Type} {f : α → Option β} {as : List α} {bs : List β}
    (h : as.mapM f = some bs) : as.map f = bs.map some := by
  induction as generalizing bs with
  | nil =>
    cases h
    rfl
  | cons a as ih =>
    simp only [List.mapM_cons, Option.bind_eq_bind, Option.bind_eq_some_iff, Option.pure_def,
      Option.some.injEq] at h
    obtain ⟨b, hb, bs, hbs, rfl⟩ := h
    rw [List.map_cons, List.map_cons, hb, ih hbs]

theorem filterMap_of_mapM {α β : Type} {f : α → Option β} {as : List α} {bs : List β}
    (h : as.mapM f = some bs) : as.filterMap f = bs := by
  have hid : as.filterMap f = (as.map f).filterMap id := by rw [List.filterMap_map]; rfl
  rw [hid, map_eq_map_some_of_mapM h, List.filterMap_map]
  exact List.filterMap_some

theorem mapM_eq_some_iff {α β : Type} {f : α → Option β} {as : List α} {bs : List β} :
    as.mapM f = some bs ↔ as.map f = bs.map some := by
  refine ⟨map_eq_map_some_of_mapM, fun h => ?_⟩
  induction as generalizing bs with
  | nil =>
    rw [List.map_nil, eq_comm, List.map_eq_nil_iff] at h
    rw [h]
    rfl
  | cons a as ih =>
    cases bs with
    | nil => cases h
    | cons b bs =>
      obtain ⟨ha, has⟩ := List.cons_eq_cons.1 h
      rw [List.mapM_cons, ha, ih has]
      rfl

theorem map_eq_map_of_mapM {α β γ : Type} {f : α → Option β} {p : α → γ} {q : β → γ}
    (hf : ∀ a b, f a = some b → q b = p a) {as : List α} {bs : List β}
    (h : as.mapM f = some bs) : bs.map q = as.map p := by
  have hmap := map_eq_map_some_of_mapM h
  clear h
  induction as generalizing bs with
  | nil =>
    obtain rfl := List.map_eq_nil_iff.1 hmap.symm
    rfl
  | cons a as ih =>
    cases bs with
    | nil => cases hmap
    | cons b bs =>
      obtain ⟨hb, hbs⟩ := List.cons_eq_cons.1 hmap
      rw [List.map_cons, List.map_cons, hf a b hb, ih hbs]

theorem mapM_eq_some_map {α β : Type} {f : α → Option β} {g : α → β} {as : List α}
    (h : ∀ a ∈ as, f a = some (g a)) : as.mapM f = some (as.map g) := by
  rw [mapM_eq_some_iff, List.map_map]
  exact List.map_congr_left h

/-- A list decodes to itself if each member does so. -/
theorem mapM_eq_some_self_iff {α : Type} {f : α → Option α} {as : List α} :
    as.mapM f = some as ↔ ∀ a ∈ as, f a = some a := by
  rw [mapM_eq_some_iff, List.map_inj_left]

theorem value?_eq_head?_filter : Entries.value? members name =
    (members.filter (·.1 == name)).head?.map Prod.snd := by
  induction members with
  | nil => rfl
  | cons m members ih =>
    obtain ⟨k, v⟩ := m
    by_cases hk : k = name
    · simp [Entries.value?, hk]
    · simp [Entries.value?, hk, ih]

theorem value?_of_part? {v : Option Written} (h : part? members name = some v) :
    Entries.value? members name = v := by
  rw [value?_eq_head?_filter]
  rw [part?] at h
  split at h
  · next hnone =>
    cases h
    rw [hnone]
    rfl
  · next m hone =>
    cases h
    rw [hone]
    rfl
  · cases h

theorem value?_of_partOfObject? {p : String × Presence} {v : Option Written}
    (h : partOfObject? members p = some v) : Entries.value? members p.1 = v := by
  obtain ⟨w, hw, h⟩ := Option.bind_eq_some_iff.1 h
  split at h
  · cases h
  · cases h
    exact value?_of_part? hw

section Objects

-- No key repeats.
variable (hnodup : (Entries.names members).Nodup)
include hnodup

theorem part?_eq (name : String) : part? members name = some (Entries.value? members name) := by
  rw [part?, value?_eq_head?_filter]
  split
  · next hnone =>
    rw [hnone]
    rfl
  · next m hone =>
    rw [hone]
    rfl
  · next m m' ms htwo =>
    have hkey (e : String × Written) (he : e ∈ m :: m' :: ms) : e.1 = name := by
      rw [← htwo, List.mem_filter] at he
      exact beq_iff_eq.1 he.2
    have hnames : ((m :: m' :: ms).map Prod.fst).Nodup := by
      rw [← htwo]
      exact hnodup.sublist (List.filter_sublist.map Prod.fst)
    rw [List.map_cons, List.map_cons, hkey m (.head _), hkey m' (.tail _ (.head _))] at hnames
    exact absurd (.head _) (List.nodup_cons.1 hnames).1

theorem partOfObject?_eq {p : String × Presence}
    (h : p.2 = .required → p.1 ∈ Entries.names members) :
    partOfObject? members p = some (Entries.value? members p.1) := by
  rw [partOfObject?, part?_eq hnodup, Option.bind_some, if_neg]
  intro hmissing
  obtain ⟨hnone, hrequired⟩ := Bool.and_eq_true_iff.1 hmissing
  rw [Option.isNone_iff_eq_none, Entries.value?_eq_none_iff] at hnone
  exact hnone (h (beq_iff_eq.1 hrequired))

end Objects

theorem mapM_partOfObject?_eq {vs : List (Option Written)}
    (h : layout.mapM (partOfObject? members) = some vs) :
    vs = layout.map fun p => Entries.value? members p.1 := by
  have hparts := map_eq_map_some_of_mapM h
  clear h
  induction layout generalizing vs with
  | nil => exact List.map_eq_nil_iff.1 hparts.symm
  | cons p layout ih =>
    match vs with
    | [] => cases hparts
    | v :: vs =>
      obtain ⟨hv, hvs⟩ := List.cons_eq_cons.1 hparts
      rw [List.map_cons, value?_of_partOfObject? hv, ← ih hvs]

theorem partsOfArray?_eq {items : List Written} {vs : List (Option Written)}
    (hnames : (layout.map Prod.fst).Nodup) (h : partsOfArray? layout items = some vs) :
    vs = layout.map fun p => Entries.value? ((layout.map Prod.fst).zip items) p.1 := by
  induction layout generalizing items vs with
  | nil =>
    cases items with
    | nil =>
      cases h
      rfl
    | cons v items => cases h
  | cons p layout ih =>
    obtain ⟨name, presence⟩ := p
    obtain ⟨hname, hnames⟩ := List.nodup_cons.1 hnames
    cases items with
    | nil =>
      rw [partsOfArray?] at h
      split at h
      · obtain ⟨vs, hvs, rfl⟩ := Option.map_eq_some_iff.1 h
        rw [ih hnames hvs]
        simp
      · cases h
    | cons v items =>
      obtain ⟨vs, hvs, rfl⟩ := Option.map_eq_some_iff.1 h
      rw [ih hnames hvs, List.map_cons, List.map_cons, List.zip_cons_cons, Entries.value?,
        if_pos rfl, List.cons.injEq]
      refine ⟨rfl, List.map_congr_left fun p hp => ?_⟩
      have hne : name ≠ p.1 := fun heq => hname (List.mem_map.2 ⟨p, hp, heq.symm⟩)
      rw [Entries.value?, if_neg hne]

theorem parts?_eq {w : Written} {vs : List (Option Written)}
    (hnames : (layout.map Prod.fst).Nodup) (h : w.parts? layout = some vs) :
    vs = layout.map fun p => Entries.value? (w.named layout) p.1 := by
  cases w with
  | object members =>
    obtain ⟨members', hmembers, h⟩ := Option.bind_eq_some_iff.1 h
    rw [named, filterMap_of_mapM hmembers]
    exact mapM_partOfObject?_eq h
  | array items => exact partsOfArray?_eq hnames h
  | null | bool b | number n | string s => cases h

/-- What is made of the parts of a document is made of what their names lead to. -/
theorem of_bind_parts? {α : Type} {w : Written} {make : List (Option Written) → Option α} {x : α}
    (hnames : (layout.map Prod.fst).Nodup) (h : (w.parts? layout).bind make = some x) :
    make (layout.map fun p => Entries.value? (w.named layout) p.1) = some x := by
  obtain ⟨vs, hvs, h⟩ := Option.bind_eq_some_iff.1 h
  rwa [← parts?_eq hnames hvs]

/-- A part that may be null is decoded where it is there and not null. -/
theorem nullable?_eq_some_iff {α : Type} {decode : Written → Option α} {v : Option Written}
    {x : Option α} : nullable? decode v = some x ↔ (present? v).map decode = x.map some := by
  have hdecode (w : Written) :
      (decode w).map some = some x ↔ (some w).map decode = x.map some := by
    cases x with
    | none => simp
    | some y => simp
  cases v with
  | none => cases x <;> simp [nullable?, present?]
  | some w =>
    cases w with
    | null => cases x <;> simp [nullable?, present?]
    | bool b => exact hdecode (.bool b)
    | number n => exact hdecode (.number n)
    | string s => exact hdecode (.string s)
    | array items => exact hdecode (.array items)
    | object members => exact hdecode (.object members)

end RuleFilter.Json.Written
