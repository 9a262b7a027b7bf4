import Mathlib.Data.List.Basic
import RuleFilter.Host.Basic
import RuleFilter.Text.Pieces

/-!
Where expanded paths lie. They start at the root and are expanded no further. Seen as components, so
that doubled separators do not count, a path goes on below the directory it starts from just as it
was written. The home directory is left where a second separator follows `~/`: what stands behind it
is then an absolute path, and those stand alone.
-/

namespace RuleFilter

namespace Text

variable {cs : List Char}

theorem pieces_eq_splitOn (separator : Char) (cs : List Char) :
    pieces separator cs = cs.splitOn separator := by
  induction cs with
  | nil => rfl
  | cons c cs ih =>
    rw [pieces, List.splitOn_cons_eq_if_modifyHead, ← ih]
    by_cases hc : c = separator
    · simp [hc]
    · cases hpieces : pieces separator cs with
      | nil => exact absurd hpieces (pieces_ne_nil separator cs)
      | cons p ps => simp [hc]

theorem pieces_append (separator : Char) (cs ds : List Char) :
    pieces separator (cs ++ separator :: ds) = pieces separator cs ++ pieces separator ds := by
  rw [pieces_eq_splitOn, pieces_eq_splitOn, pieces_eq_splitOn, List.splitOn_append_cons_self]

/-- A text that does not end with a blank. -/
def EndsNonblank (cs : List Char) : Prop := ∀ c ∈ cs.getLast?, isBlank c = false

theorem endsNonblank_append_iff {ds : List Char} (h : ds ≠ []) :
    EndsNonblank (cs ++ ds) ↔ EndsNonblank ds := by
  rw [EndsNonblank, EndsNonblank, List.getLast?_append_of_ne_nil cs h]

theorem endsNonblank_cons_iff {c : Char} :
    EndsNonblank (c :: cs) ↔ EndsNonblank cs ∧ (cs = [] → isBlank c = false) := by
  by_cases hnil : cs = []
  · simp [EndsNonblank, hnil]
  · rw [← List.singleton_append, endsNonblank_append_iff hnil]
    simp [hnil]

theorem endsNonblank_trimEnd (cs : List Char) : EndsNonblank (trimEnd cs) := by
  induction cs with
  | nil => simp [EndsNonblank, trimEnd]
  | cons c cs ih =>
    rw [trimEnd_cons]
    split
    · simp [EndsNonblank]
    · next hkept =>
      rw [not_and, Bool.not_eq_true] at hkept
      exact endsNonblank_cons_iff.2 ⟨ih, hkept⟩

theorem trimEnd_eq_self_iff : trimEnd cs = cs ↔ EndsNonblank cs := by
  constructor
  · intro h
    exact h ▸ endsNonblank_trimEnd cs
  · intro h
    obtain ⟨blanks, hcs, hblanks⟩ := trimEnd_append_blanks cs
    by_cases hnil : blanks = []
    · rw [hnil, List.append_nil] at hcs
      exact hcs.symm
    · rw [hcs, endsNonblank_append_iff hnil] at h
      have hlast := h _ (List.getLast?_eq_some_getLast hnil)
      rw [hblanks _ (List.getLast_mem hnil)] at hlast
      cases hlast

end Text

namespace Path

variable {home directory base path rest result : List Char}

/-- What a path is made of. Paths are not followed, so that a step to the parent stays one. -/
inductive Component where
  | root
  | current
  | parent
  | name (text : List Char)
  deriving DecidableEq

/-- The component that a piece between separators stands for, if any. -/
def component? : List Char → Option Component
  | [] | ['.'] => none
  | ['.', '.'] => some .parent
  | piece => some (.name piece)

/-- The components of a path from where it starts. -/
def descent (path : List Char) : List Component := (Text.pieces '/' path).filterMap component?

/-- Where a path says that it starts; a point counts nowhere else. -/
def start : List Char → List Component
  | '/' :: _ => [.root]
  | ['.'] | '.' :: '/' :: _ => [.current]
  | _ => []

def components (path : List Char) : List Component := start path ++ descent path

/-- A path at or below another one. -/
def IsBelow (base path : List Char) : Prop := components base <+: components path

instance : Decidable (IsBelow base path) :=
  inferInstanceAs (Decidable (components base <+: components path))

/-- A path that is meant to start from the home directory. -/
def LeadsHome (path : List Char) : Prop := path = ['~'] ∨ ['~', '/'] <+: path

instance : Decidable (LeadsHome path) :=
  inferInstanceAs (Decidable (path = ['~'] ∨ ['~', '/'] <+: path))

/-- An absolute path with no blanks around it. -/
structure IsExpanded (path : List Char) : Prop where
  isAbsolute : isAbsolute path
  trimmed : Text.trim path = path

theorem isAbsolute_iff : isAbsolute path ↔ ∃ rest, path = '/' :: rest := by
  constructor
  · intro h
    unfold isAbsolute at h
    split at h
    · exact ⟨_, rfl⟩
    · cases h
  · rintro ⟨rest, rfl⟩
    rfl

theorem ne_nil_of_isAbsolute (h : isAbsolute path) : path ≠ [] := by
  rintro rfl
  cases h

theorem isAbsolute_append (h : isAbsolute base) (path : List Char) :
    isAbsolute (base ++ path) := by
  obtain ⟨rest, rfl⟩ := isAbsolute_iff.1 h
  rfl

theorem isExpanded_iff : IsExpanded path ↔ isAbsolute path ∧ Text.EndsNonblank path := by
  have htrim (h : isAbsolute path) : Text.trim path = path ↔ Text.EndsNonblank path := by
    obtain ⟨rest, rfl⟩ := isAbsolute_iff.1 h
    exact Text.trimEnd_eq_self_iff
  constructor
  · rintro ⟨habsolute, htrimmed⟩
    exact ⟨habsolute, (htrim habsolute).1 htrimmed⟩
  · rintro ⟨habsolute, hend⟩
    exact ⟨habsolute, (htrim habsolute).2 hend⟩

theorem descent_append (cs ds : List Char) :
    descent (cs ++ '/' :: ds) = descent cs ++ descent ds := by
  rw [descent, Text.pieces_append, List.filterMap_append, descent, descent]

theorem components_of_isAbsolute (h : isAbsolute path) :
    components path = .root :: descent path := by
  obtain ⟨rest, rfl⟩ := isAbsolute_iff.1 h
  rfl

theorem join_of_isAbsolute (h : isAbsolute path) : join base path = path := by simp [join, h]

/-- A relative path stands behind a separator, which the base may already end with. -/
theorem exists_join_eq (hbase : isAbsolute base) (hpath : isAbsolute path = false) :
    ∃ lead, join base path = lead ++ '/' :: path ∧ (base = lead ∨ base = lead ++ ['/']) := by
  have hne := ne_nil_of_isAbsolute hbase
  by_cases hlast : base.getLast? = some '/'
  · refine ⟨base.dropLast, ?_, .inr (List.dropLast_append_getLast? '/' hlast).symm⟩
    rw [List.append_cons, List.dropLast_append_getLast? '/' hlast]
    simp [join, hpath, hne, hlast]
  · exact ⟨base, by simp [join, hpath, hne, hlast], .inl rfl⟩

theorem isAbsolute_join (h : isAbsolute base) (path : List Char) : isAbsolute (join base path) := by
  rw [join]
  split
  · next hcase => simpa [ne_nil_of_isAbsolute h] using hcase
  · split
    · exact isAbsolute_append h path
    · exact isAbsolute_append h ('/' :: path)

theorem components_join (hbase : isAbsolute base) (hpath : isAbsolute path = false) :
    components (join base path) = components base ++ descent path := by
  rw [components_of_isAbsolute (isAbsolute_join hbase path), components_of_isAbsolute hbase,
    List.cons_append]
  obtain ⟨lead, hjoin, hlead⟩ := exists_join_eq hbase hpath
  have hdescent : descent base = descent lead := by
    obtain rfl | rfl := hlead
    · rfl
    · rw [descent_append]
      exact List.append_nil _
  rw [hjoin, descent_append, hdescent]

theorem isExpanded_join (hbase : isAbsolute base) (hpath : isAbsolute path = false)
    (hend : Text.EndsNonblank path) : IsExpanded (join base path) := by
  refine isExpanded_iff.2 ⟨isAbsolute_join hbase path, ?_⟩
  obtain ⟨lead, hjoin, -⟩ := exists_join_eq hbase hpath
  rw [hjoin, Text.endsNonblank_append_iff (List.cons_ne_nil _ _)]
  exact Text.endsNonblank_cons_iff.2 ⟨hend, fun _ => rfl⟩

theorem leadsHome_iff : LeadsHome path ↔ path = ['~'] ∨ ∃ rest, path = '~' :: '/' :: rest := by
  refine or_congr_right ?_
  constructor
  · rintro ⟨rest, rfl⟩
    exact ⟨rest, rfl⟩
  · rintro ⟨rest, rfl⟩
    exact ⟨rest, rfl⟩

theorem expandHome_of_not_leadsHome (h : ¬ LeadsHome path) : expandHome home path = path := by
  rw [leadsHome_iff, not_or, not_exists] at h
  rw [expandHome.eq_def]
  split
  · exact absurd rfl h.1
  · next rest => exact absurd rfl (h.2 rest)
  · rfl

/-- The ways in which a path without blanks around it is expanded, where each directory may be
unknown. -/
inductive Expands (home directory : Option (List Char)) : List Char → List Char → Prop
  | empty : Expands home directory [] (directory.getD ['.'])
  | home {base : List Char} : home = some base → Expands home directory ['~'] base
  | inHome {base : List Char} (path : List Char) : home = some base →
      Expands home directory ('~' :: '/' :: path) (join base path)
  | relative {path : List Char} : path ≠ [] → (LeadsHome path → home = none) →
      isAbsolute path = false →
      Expands home directory path (directory.elim path fun base => join base path)
  | absolute {path : List Char} : isAbsolute path → Expands home directory path path

theorem expands_expand {home directory : Option (List Char)}
    (hhome : ∀ base, home = some base → isAbsolute base) (path : List Char) :
    Expands home directory (Text.trim path) (expand home directory path) := by
  rw [expand]
  split
  · next hnil =>
    rw [hnil]
    exact .empty
  · next hnil =>
    have hplain (h : LeadsHome (Text.trim path) → home = none) :
        Expands home directory (Text.trim path) (if isAbsolute (Text.trim path)
          then Text.trim path
          else directory.elim (Text.trim path) fun base => join base (Text.trim path)) := by
      split
      · next habsolute => exact .absolute habsolute
      · next hrelative => exact .relative hnil h (Bool.eq_false_iff.2 hrelative)
    cases home with
    | none => exact hplain fun _ => rfl
    | some base =>
      have hbase := hhome base rfl
      by_cases hleads : LeadsHome (Text.trim path)
      · obtain htilde | ⟨rest, hrest⟩ := leadsHome_iff.1 hleads
        · rw [htilde]
          simp only [Option.elim_some, expandHome, hbase, if_true]
          exact .home rfl
        · rw [hrest]
          simp only [Option.elim_some, expandHome, isAbsolute_join hbase rest, if_true]
          exact .inHome rest rfl
      · simp only [Option.elim_some, expandHome_of_not_leadsHome hleads]
        exact hplain fun h => absurd h hleads

theorem not_leadsHome_of_isAbsolute (h : isAbsolute path) : ¬ LeadsHome path := by
  rw [leadsHome_iff]
  rintro (rfl | ⟨rest, rfl⟩) <;> cases h

section Known

theorem Expands.isExpanded (h : Expands (some home) (some directory) path result)
    (hhome : IsExpanded home) (hdirectory : IsExpanded directory)
    (hpath : Text.EndsNonblank path) : IsExpanded result := by
  cases h with
  | empty => exact hdirectory
  | home hbase =>
    cases hbase
    exact hhome
  | inHome rest hbase =>
    cases hbase
    have hrest := (Text.endsNonblank_cons_iff.1 (Text.endsNonblank_cons_iff.1 hpath).1).1
    by_cases habsolute : isAbsolute rest
    · rw [join_of_isAbsolute habsolute]
      exact isExpanded_iff.2 ⟨habsolute, hrest⟩
    · exact isExpanded_join hhome.isAbsolute (Bool.eq_false_iff.2 habsolute) hrest
  | relative _ _ hrelative => exact isExpanded_join hdirectory.isAbsolute hrelative hpath
  | absolute habsolute => exact isExpanded_iff.2 ⟨habsolute, hpath⟩

variable {place : Option (List Char)}

/-- The home directory is left only by an absolute path behind `~/`, and by that just where it would
be left if it stood alone. -/
theorem Expands.isBelow_home_iff (h : Expands (some home) place path result)
    (hhome : isAbsolute home) (hpath : LeadsHome path) : IsBelow home result ↔
      ∀ rest, path = '~' :: '/' :: rest → isAbsolute rest → IsBelow home rest := by
  cases h with
  | empty => simp [LeadsHome] at hpath
  | home hbase =>
    cases hbase
    exact iff_of_true (List.prefix_refl _) (by simp)
  | inHome rest hbase =>
    cases hbase
    by_cases habsolute : isAbsolute rest
    · rw [join_of_isAbsolute habsolute]
      simp [habsolute]
    · have hrelative := Bool.eq_false_iff.2 habsolute
      refine iff_of_true ?_ (by simp [hrelative])
      rw [IsBelow, components_join hhome hrelative]
      exact List.prefix_append _ _
  | relative _ hunknown _ => cases hunknown hpath
  | absolute habsolute => exact absurd hpath (not_leadsHome_of_isAbsolute habsolute)

theorem Expands.eq_join_home (h : Expands (some home) place ('~' :: '/' :: rest) result) :
    result = join home rest := by
  cases h with
  | inHome _ hbase => cases hbase; rfl
  | relative _ hunknown _ => cases hunknown (leadsHome_iff.2 (.inr ⟨rest, rfl⟩))
  | absolute habsolute => cases habsolute

theorem Expands.eq_home (h : Expands (some home) place ['~'] result) : result = home := by
  cases h with
  | home hbase => cases hbase; rfl
  | relative _ hunknown _ => cases hunknown (.inl rfl)
  | absolute habsolute => cases habsolute

end Known

/-- A relative path that does not lead to a known home directory starts from the working directory,
and stays as it is where that is unknown. -/
theorem Expands.eq_of_relative {home directory : Option (List Char)}
    (h : Expands home directory path result) (hleads : LeadsHome path → home = none)
    (hpath : isAbsolute path = false) : result = if path = [] then directory.getD ['.']
      else directory.elim path fun base => join base path := by
  cases h with
  | empty => rfl
  | home hbase =>
    rw [hleads (.inl rfl)] at hbase
    cases hbase
  | inHome rest hbase =>
    rw [hleads (leadsHome_iff.2 (.inr ⟨rest, rfl⟩))] at hbase
    cases hbase
  | relative hne _ _ => rw [if_neg hne]
  | absolute habsolute => simp [habsolute] at hpath

theorem Expands.components_of_directory {home : Option (List Char)}
    (h : Expands home (some directory) path result) (hdirectory : isAbsolute directory)
    (hleads : LeadsHome path → home = none) (hpath : isAbsolute path = false) :
    components result = components directory ++ descent path := by
  rw [h.eq_of_relative hleads hpath]
  split
  · next hnil =>
    rw [hnil]
    exact (List.append_nil _).symm
  · exact components_join hdirectory hpath

theorem Expands.eq_self {home directory : Option (List Char)}
    (h : Expands home directory path result) (hpath : isAbsolute path) : result = path := by
  cases h with
  | absolute => rfl
  | relative _ _ hrelative => simp [hpath] at hrelative
  | _ => cases hpath

theorem isAbsolute_of_some (hhome : isAbsolute home) :
    ∀ base, some home = some base → isAbsolute base := by
  rintro _ ⟨⟩
  exact hhome

theorem isExpanded_expand (hhome : IsExpanded home) (hdirectory : IsExpanded directory)
    (path : List Char) : IsExpanded (expand (some home) (some directory) path) :=
  (expands_expand (isAbsolute_of_some hhome.isAbsolute) path).isExpanded hhome hdirectory
    (Text.endsNonblank_trimEnd _)

/-- Expansion leaves the absolute paths without blanks around them as they are, and no others. -/
theorem expand_eq_self_iff (hhome : IsExpanded home) (hdirectory : IsExpanded directory) :
    expand (some home) (some directory) path = path ↔ IsExpanded path := by
  constructor
  · intro h
    exact h ▸ isExpanded_expand hhome hdirectory path
  · intro h
    have hexpands : Expands (some home) (some directory) (Text.trim path)
        (expand (some home) (some directory) path) :=
      expands_expand (isAbsolute_of_some hhome.isAbsolute) path
    rw [h.trimmed] at hexpands
    exact hexpands.eq_self h.isAbsolute

end Path

namespace Host

open RuleFilter.Path

variable {h : Host} {home directory : String}

theorem toList_expand (h : Host) (path : String) : (h.expand path).toList =
    Path.expand (h.home.map String.toList) (h.directory.map String.toList) path.toList :=
  String.toList_ofList

/-- A host whose directories are absolute expands every path to an absolute one, which it expands no
further. A path that leads home is expanded to one at or below the home directory unless what stands
behind `~/` is absolute and lies elsewhere: that is taken as it is, and anything else goes on below
the home directory as it was written. Any other relative path, or none at all, goes on below the
working directory, and an absolute one stays as it is. -/
theorem expand_anchored (hhome : h.home = some home) (hdirectory : h.directory = some directory)
    (hbase : IsExpanded home.toList) (hplace : IsExpanded directory.toList) (path : String) :
    let q := Text.trim path.toList
    let result := (h.expand path).toList
    isAbsolute result ∧
      (LeadsHome q → (IsBelow home.toList result ↔
        ∀ rest, q = '~' :: '/' :: rest → isAbsolute rest → IsBelow home.toList rest)) ∧
      (q = ['~'] → result = home.toList) ∧
      (∀ rest, q = '~' :: '/' :: rest → if isAbsolute rest then result = rest
        else components result = components home.toList ++ descent rest) ∧
      (¬ LeadsHome q → isAbsolute q = false →
        components result = components directory.toList ++ descent q) ∧
      (isAbsolute q → result = q) ∧
      h.expand (h.expand path) = h.expand path := by
  intro q result
  have heq (p : String) : (h.expand p).toList =
      Path.expand (some home.toList) (some directory.toList) p.toList := by
    rw [toList_expand, hhome, hdirectory]
    rfl
  have hexpands : Expands (some home.toList) (some directory.toList) q result := by
    rw [show result = _ from heq path]
    exact expands_expand (isAbsolute_of_some hbase.isAbsolute) path.toList
  have hresult : IsExpanded result := by
    rw [show result = _ from heq path]
    exact isExpanded_expand hbase hplace path.toList
  refine ⟨hresult.isAbsolute, hexpands.isBelow_home_iff hbase.isAbsolute, fun hq => ?_,
    fun rest hq => ?_, fun hleads => hexpands.components_of_directory hplace.isAbsolute
      fun h => absurd h hleads, hexpands.eq_self, ?_⟩
  · rw [hq] at hexpands
    exact hexpands.eq_home
  · rw [hq] at hexpands
    rw [hexpands.eq_join_home]
    split
    · next habsolute => exact join_of_isAbsolute habsolute
    · next hrelative => exact components_join hbase.isAbsolute (Bool.eq_false_iff.2 hrelative)
  · rw [← String.toList_inj, heq]
    exact (expand_eq_self_iff hbase hplace).2 hresult

/-- Where the home directory is unknown a tilde is a name like any other. Where the working
directory is unknown relative paths stay as they are, and none at all becomes a point. -/
theorem expand_of_unknown (hhome : ∀ home, h.home = some home → isAbsolute home.toList)
    (path : String) :
    let q := Text.trim path.toList
    let result := (h.expand path).toList
    isAbsolute q = false → (LeadsHome q → h.home = none) →
      (∀ directory, h.directory = some directory → isAbsolute directory.toList →
        components result = components directory.toList ++ descent q) ∧
      (h.directory = none → result = if q = [] then ['.'] else q) := by
  intro q result hrelative hleads
  have hbase : ∀ base, h.home.map String.toList = some base → isAbsolute base := by
    intro base hmap
    obtain ⟨home, hknown, rfl⟩ := Option.map_eq_some_iff.1 hmap
    exact hhome home hknown
  have hexpands : Expands (h.home.map String.toList) (h.directory.map String.toList) q result := by
    rw [show result = _ from toList_expand h path]
    exact expands_expand hbase path.toList
  have hunknown : LeadsHome q → h.home.map String.toList = none := fun hq => by
    rw [hleads hq]
    rfl
  constructor
  · intro directory hdirectory habsolute
    rw [hdirectory] at hexpands
    exact hexpands.components_of_directory habsolute hunknown hrelative
  · intro hdirectory
    rw [hdirectory] at hexpands
    exact hexpands.eq_of_relative hunknown hrelative

/-- A host without files, whose working directory ends with a separator. -/
def bareHost : Host where
  home := some "/home/ada"
  directory := some "/work/"
  node? _ := none

theorem isExpanded_home_bareHost : IsExpanded "/home/ada".toList := ⟨by decide, by decide⟩

theorem isExpanded_directory_bareHost : IsExpanded "/work/".toList := ⟨by decide, by decide⟩

/-- A step to a parent is kept, doubled separators and points are not seen, and a tilde further on
is a name. -/
theorem expand_anchored_bareHost :
    IsExpanded "/home/ada".toList ∧ IsExpanded "/work/".toList ∧
      components (bareHost.expand "\t~/rules//./../late rules.json\u2003").toList =
        [.root, .name "home".toList, .name "ada".toList, .name "rules".toList, .parent,
          .name "late rules.json".toList] ∧
      components (bareHost.expand " ./~/late ").toList =
        [.root, .name "work".toList, .name ['~'], .name "late".toList] ∧
      bareHost.expand (bareHost.expand " ./~/late ") = bareHost.expand " ./~/late " := by
  have hhome : bareHost.home = some "/home/ada" := rfl
  have hdirectory : bareHost.directory = some "/work/" := rfl
  obtain ⟨-, -, -, hbelow, -⟩ :=
    expand_anchored hhome hdirectory isExpanded_home_bareHost isExpanded_directory_bareHost
      "\t~/rules//./../late rules.json\u2003"
  obtain ⟨-, -, -, -, hplace, -, hagain⟩ :=
    expand_anchored hhome hdirectory isExpanded_home_bareHost isExpanded_directory_bareHost
      " ./~/late "
  exact ⟨isExpanded_home_bareHost, isExpanded_directory_bareHost,
    hbelow "rules//./../late rules.json".toList (by decide), hplace (by decide) (by decide),
    hagain⟩

/-- Behind a doubled separator stands an absolute path, which leaves the home directory. -/
theorem not_isBelow_home_of_leadsHome : ¬ ∀ (h : Host) (home directory path : String),
    h.home = some home → h.directory = some directory → IsExpanded home.toList →
      IsExpanded directory.toList → LeadsHome (Text.trim path.toList) →
        IsBelow home.toList (h.expand path).toList := by
  intro hall
  have hbelow := hall bareHost "/home/ada" "/work/" "~//abs" rfl rfl isExpanded_home_bareHost
    isExpanded_directory_bareHost (by decide)
  exact absurd hbelow (by decide)

end Host

end RuleFilter
