import RuleFilter.Proofs.Json.Value
import RuleFilter.Schema.Decode

/-!
Fields decoded from their own encoding. Each part of a field is left out just when decoding supplies
it again, in whatever form the encoding is shown; only of form options does it depend on the form
whether they are the same again.
-/

namespace RuleFilter

open Json

namespace Schema.Field

section Written

variable {α : Type}

theorem withDefault?_eq (default : α) (decode : Written → Option α) :
    Written.withDefault? default decode = View.withDefault? default decode := by
  funext w
  cases w <;> rfl

theorem nullable?_eq (decode : Written → Option α) :
    Written.nullable? decode = Written.view.nullable? decode := by
  funext w
  cases w with
  | none => rfl
  | some w => cases w <;> rfl

theorem list?_eq (decode : Written → Option α) :
    Written.list? decode = Written.view.list? decode := by
  funext w
  cases w <;> rfl

theorem named?_eq (ofName? : String → Option α) :
    Written.named? ofName? = Written.view.named? ofName? := by
  funext w
  fun_cases Written.named? ofName? w
  · rfl
  · rfl
  · next hstring hobject =>
    show none = w.name?.bind ofName?
    rw [Written.name?]
    · rfl
    · exact hstring
    · exact hobject

theorem ofWritten?_eq_decode? : ofWritten? = decode? Written.view := by
  funext w
  rw [ofWritten?, decode?, withDefault?_eq, withDefault?_eq, withDefault?_eq, nullable?_eq,
    nullable?_eq, list?_eq, list?_eq, named?_eq, named?_eq]
  refine congrArg (Option.bind (w.parts? layout)) (funext fun parts => ?_)
  -- The two matches on the parts are of one shape, but each definition has its own.
  split
  · rfl
  · next hparts =>
    split
    · exact absurd rfl (hparts _ _ _ _ _ _ _ _)
    · rfl

end Written

end Schema.Field

namespace Json

/-- The members of an object by the values of its parts, without the parts that are left out. -/
def membersOf : List String → List (Option Json) → Members
  | k :: ks, some v :: vs => (k, v) :: membersOf ks vs
  | _ :: ks, none :: vs => membersOf ks vs
  | _, _ => []

section Parts

variable {ks : List String} {vs : List (Option Json)}

theorem names_membersOf_sublist : (membersOf ks vs).names.Sublist ks := by
  fun_induction membersOf ks vs with
  | case1 k ks v vs ih => exact ih.cons_cons k
  | case2 k ks vs ih => exact ih.cons k
  | case3 => exact List.nil_sublist _

/-- What stands under the names of the parts are the parts. -/
theorem map_value?_membersOf (hnodup : ks.Nodup) (hlength : ks.length = vs.length) :
    ks.map (Entries.value? (membersOf ks vs)) = vs := by
  induction ks generalizing vs with
  | nil => exact (List.length_eq_zero_iff.1 hlength.symm).symm
  | cons k ks ih =>
    obtain ⟨hk, hks⟩ := List.nodup_cons.1 hnodup
    cases vs with
    | nil => cases hlength
    | cons v vs =>
      have hrest := ih hks (Nat.succ.inj hlength)
      cases v with
      | none =>
        have hfirst : Entries.value? (membersOf ks vs) k = none :=
          Entries.value?_eq_none_iff.2 fun hmem => hk (names_membersOf_sublist.mem hmem)
        exact List.cons_eq_cons.2 ⟨hfirst, hrest⟩
      | some v =>
        refine List.cons_eq_cons.2 ⟨if_pos rfl, Eq.trans ?_ hrest⟩
        refine List.map_congr_left fun k' hk' => if_neg ?_
        rintro rfl
        exact hk hk'

end Parts

namespace View

variable {δ : Type} {view : View δ} {encode : Json → δ}

/-- An encoding of values into a form in which decoding sees what they hold. -/
structure Shows (view : View δ) (encode : Json → δ) : Prop where
  parts? {layout : Layout} {members : Members} : members.names.Nodup →
    (∀ p ∈ layout, p.2 = .required → p.1 ∈ members.names) →
    view.parts? layout (encode (.object members)) =
      some (layout.map fun p => (Entries.value? members p.1).map encode)
  string? (s : String) : view.string? (encode (.string s)) = some s
  bool? (b : Bool) : view.bool? (encode (.bool b)) = some b
  isNull_string (s : String) : view.isNull (encode (.string s)) = false
  isNull_array (items : List Json) : view.isNull (encode (.array items)) = false
  name? (s : String) : view.name? (encode (.string s)) = some s
  items? (items : List Json) : view.items? (encode (.array items)) = some (items.map encode)

theorem nullable?_map {α : Type} {decode : δ → Option α} {json : α → Json}
    (hnull : ∀ a, view.isNull (encode (json a)) = false)
    (hdecode : ∀ a, decode (encode (json a)) = some a) (a? : Option α) :
    view.nullable? decode ((a?.map json).map encode) = some a? := by
  cases a? with
  | none => rfl
  | some a =>
    show (if view.isNull (encode (json a)) then _ else _) = _
    rw [hnull, if_neg Bool.false_ne_true, hdecode]
    rfl

theorem Shows.named?_name (h : view.Shows encode) {α : Type} {name : α → String}
    {ofName? : String → Option α} (hname : ∀ a, ofName? (name a) = some a) (a : α) :
    view.named? ofName? (encode (.string (name a))) = some a := by
  rw [View.named?, h.name?, Option.bind_some, hname]

theorem Shows.list?_strings (h : view.Shows encode) {α : Type} {text : α → String}
    {decode : δ → Option α} (hdecode : ∀ a, decode (encode (.string (text a))) = some a)
    (as : List α) : view.list? decode (encode (Json.strings (as.map text))) = some as := by
  rw [View.list?, Json.strings, h.items?, Option.bind_some, List.map_map, List.map_map,
    List.mapM_map, Written.mapM_eq_some_self_iff]
  exact fun a _ => hdecode a

end View

theorem partOfMembers?_eq {members : Members} {p : String × Presence}
    (h : p.2 = .required → p.1 ∈ members.names) :
    partOfMembers? members p = some (Entries.value? members p.1) := by
  rw [partOfMembers?]
  split
  · next v hv => rw [hv]
  · next hnone =>
    rw [if_neg fun hrequired => Entries.value?_eq_none_iff.1 hnone (h hrequired), hnone]

theorem shows_view : Json.view.Shows id where
  parts? {layout members} _ h := by
    show layout.mapM (partOfMembers? members) = _
    refine Written.mapM_eq_some_map fun p hp => ?_
    rw [partOfMembers?_eq (h p hp), Option.map_id, id]
  string? _ := rfl
  bool? _ := rfl
  isNull_string _ := rfl
  isNull_array _ := rfl
  name? _ := rfl
  items? items := congrArg some (List.map_id items).symm

theorem mapM_textOf_pieces (members : Members) :
    (members.map fun m => (pieces m.1, m.2.written)).mapM (fun m => (textOf m.1).map (·, m.2)) =
      some (members.map fun m => (m.1, m.2.written)) := by
  rw [List.mapM_map]
  refine Written.mapM_eq_some_map fun m _ => ?_
  rw [Function.comp_apply, textOf_pieces, Option.map_some]

theorem shows_written : Written.view.Shows written where
  parts? {layout members} hnodup h := by
    let shown : List (String × Written) := members.map fun m => (m.1, m.2.written)
    have hnames : Entries.names shown = members.names := by simp [shown, Entries.names]
    have hparts : layout.mapM (Written.partOfObject? shown) =
        some (layout.map fun p => (Entries.value? members p.1).map written) := by
      refine Written.mapM_eq_some_map fun p hp => ?_
      rw [Written.partOfObject?_eq (hnames ▸ hnodup) (hnames ▸ h p hp), Entries.value?_map]
    show Written.parts? layout (object members).written = _
    rw [written, Written.parts?]
    exact (Option.bind_congr' (mapM_textOf_pieces members) fun _ _ => rfl).trans hparts
  string? s := by rw [written]; exact textOf_pieces s
  bool? b := by rw [written]; rfl
  isNull_string _ := by rw [written]; rfl
  isNull_array _ := by rw [written]; rfl
  name? s := by rw [written]; exact textOf_pieces s
  items? items := by rw [written]; rfl

end Json

namespace Schema.Field

/-- The values of the parts in the order of the layout. -/
def parts (f : Field) : List (Option Json) :=
  [some (.string f.name), some (.string f.type.name), f.column?.map .string,
    some (.bool f.nullable), f.operators?.map fun ops => Json.strings (ops.map Operator.name),
    if f.choices = [] then none else some (Json.strings f.choices), f.formType.map .string,
    if f.formOptions.isEmpty then none else some (.object f.formOptions)]

theorem toJson_eq (f : Field) : f.toJson = .object (membersOf (layout.map Prod.fst) f.parts) := by
  rw [toJson, parts]
  cases f.column? <;> cases f.operators? <;> cases f.formType <;> split <;> split <;> rfl

section Decode

variable {δ : Type} {view : View δ} {encode : Json → δ}

variable (h : view.Shows encode) (f : Field)
include h

theorem parts?_toJson :
    view.parts? layout (encode f.toJson) = some (f.parts.map (·.map encode)) := by
  have hnodup : (layout.map Prod.fst).Nodup := by decide
  have hlength : (layout.map Prod.fst).length = f.parts.length := rfl
  have hparts := map_value?_membersOf hnodup hlength
  have hrequired : ∀ p ∈ layout, p.2 = .required → p.1 ∈ ["name", "type"] := by decide
  rw [toJson_eq, h.parts? (hnodup.sublist names_membersOf_sublist)]
  · refine congrArg some (Eq.trans ?_ (congrArg (List.map (Option.map encode)) hparts))
    rw [List.map_map, List.map_map]
    rfl
  · exact fun p hp hpresence => List.mem_append_left _ (hrequired p hp hpresence)

theorem decode?_choices (choices : List String) :
    View.withDefault? [] (view.list? view.string?)
        ((if choices = [] then none else some (Json.strings choices)).map encode) =
      some choices := by
  split
  · next hnil =>
    rw [hnil]
    rfl
  · have hlist : view.list? view.string? (encode (Json.strings (choices.map id))) = some choices :=
      h.list?_strings h.string? choices
    rwa [List.map_id] at hlist

/-- Decoding a field from its encoding comes down to its form options. -/
theorem decode?_toJson : decode? view (encode f.toJson) =
    (View.withDefault? [] view.options?
      ((if f.formOptions.isEmpty then none else some (.object f.formOptions)).map encode)).map
        fun options => { f with formOptions := options } := by
  have hnullable : View.withDefault? true view.bool? (some (encode (.bool f.nullable))) =
      some f.nullable := h.bool? _
  have htext := View.nullable?_map h.isNull_string h.string?
  have hoperators : view.nullable? (view.list? (view.named? Operator.ofName?))
      ((f.operators?.map fun ops => Json.strings (ops.map Operator.name)).map encode) =
      some f.operators? :=
    View.nullable?_map (fun ops => h.isNull_array _)
      (h.list?_strings (h.named?_name Operator.ofName?_name)) f.operators?
  rw [decode?, parts?_toJson h]
  simp only [parts, List.map_cons, List.map_nil, Option.map_some, Option.bind_eq_bind,
    Option.bind_some, h.string?, h.named?_name FieldType.ofName?_name, htext, hnullable,
    hoperators, decode?_choices h, Option.pure_def]
  exact Option.map_eq_bind.symm

theorem decode?_toJson_eq_some_iff : decode? view (encode f.toJson) = some f ↔
    f.formOptions = [] ∨ view.options? (encode (.object f.formOptions)) = some f.formOptions := by
  have hfield (options : Members) : { f with formOptions := options } = f ↔
      options = f.formOptions := by
    obtain ⟨name, type, column?, nullable, operators?, choices, formType, formOptions⟩ := f
    rw [Field.mk.injEq]
    simp
  rw [decode?_toJson h, Option.map_eq_some_iff]
  simp only [hfield, exists_eq_right]
  cases hoptions : f.formOptions with
  | nil => exact iff_of_true rfl (.inl rfl)
  | cons m members => simp [View.withDefault?]

end Decode

/-- A field is given back by the value that it is encoded as. -/
theorem ofJson?_toJson (f : Field) : ofJson? f.toJson = some f :=
  (decode?_toJson_eq_some_iff Json.shows_view f).2 (.inr rfl)

end Schema.Field

namespace Schema

theorem options?_eq_some_iff {w : Written} {options : Members} :
    options? w = some options ↔ w.value? (Written.maxNesting - 3) = some (.object options) := by
  rw [options?]
  split
  · next members hmembers => simp [hmembers]
  · next hother => exact iff_of_false nofun (hother options)

/-- A field is given back by its encoding in a document just when form options nest no deeper than
there is room for and their numbers are read as themselves. -/
theorem Field.ofWritten?_toJson_iff {f : Field} (h : (object f.formOptions).IsValue) :
    ofWritten? f.toJson.written = some f ↔
      (object f.formOptions).nesting ≤ Written.maxNesting - 3 ∧
        ∀ x ∈ (object f.formOptions).reals, Rereads x := by
  have hempty (hnil : f.formOptions = []) :
      options? (object f.formOptions).written = some f.formOptions := by
    rw [hnil, written]
    rfl
  rw [ofWritten?_eq_decode?, decode?_toJson_eq_some_iff shows_written, ← value?_written_iff h,
    ← options?_eq_some_iff]
  exact or_iff_right_of_imp hempty

end Schema

end RuleFilter
