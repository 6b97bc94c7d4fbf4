import Mathlib.Algebra.BigOperators.Group.List.Basic
import Mathlib.Algebra.Group.WithOne.Basic
import Mathlib.Data.List.Infix

/-!
# Tries with values that add up

A trie keeps a value under every path of keys that was put into it, and under the paths that lead
there.  What it keeps under a path is `find`, 0 where it has no node; with it, adding a value and
merging two tries are sums, so that neither the order of the paths nor how they are cut into parts
matters.

* `Trie.alter` — a change to the node of a key, made when there is none.
* `Trie.insert`, `Trie.merge`, `Trie.prune` — the operations.
* `Trie.Distinct` — no key twice among siblings.
* `Trie.find_insert`, `Trie.find_merge`, `Trie.find_prune` — what they keep.
-/

namespace PhpSpx.Lib

universe u v

/-- The nodes below a node, or at the top, one beside the other. -/
inductive Trie (κ : Type u) (α : Type v) where
  | leaf
  | branch (key : κ) (value : α) (children siblings : Trie κ α)

namespace Trie

variable {κ : Type u} {α : Type v}

/-- The keys at the top. -/
def keys : Trie κ α → List κ
  | leaf => []
  | branch key _ _ siblings => key :: siblings.keys

/-- No key twice among siblings. -/
def Distinct : Trie κ α → Prop
  | leaf => True
  | branch key _ children siblings =>
    key ∉ siblings.keys ∧ children.Distinct ∧ siblings.Distinct

/-- The nodes with a value that is not kept are taken out, with all below them. -/
def prune (keep : α → Bool) : Trie κ α → Trie κ α
  | leaf => leaf
  | branch key value children siblings =>
    if keep value then branch key value (children.prune keep) (siblings.prune keep)
    else siblings.prune keep

section Find

variable [DecidableEq κ]

/-- The value under a path, 0 when there is no node. -/
def find : Trie κ α → List κ → WithZero α
  | leaf, _ => 0
  | branch _ _ _ _, [] => 0
  | branch key value children siblings, k :: path =>
    if key = k then (if path = [] then (value : WithZero α) else children.find path)
    else siblings.find (k :: path)

/-- What is below the node of a key. -/
def subtrie (k : κ) : Trie κ α → Trie κ α
  | leaf => leaf
  | branch key _ children siblings => if key = k then children else siblings.subtrie k

@[simp] theorem find_leaf (path : List κ) : (leaf : Trie κ α).find path = 0 := rfl

@[simp] theorem find_nil (t : Trie κ α) : t.find [] = 0 := by cases t <;> rfl

theorem find_branch_self (k : κ) (value : α) (c s : Trie κ α) (path : List κ) :
    (branch k value c s).find (k :: path) =
      if path = [] then (value : WithZero α) else c.find path := if_pos rfl

theorem find_branch_of_ne {key k : κ} (h : key ≠ k) (value : α) (c s : Trie κ α)
    (path : List κ) : (branch key value c s).find (k :: path) = s.find (k :: path) := if_neg h

theorem find_cons_of_ne_nil (t : Trie κ α) (k : κ) {path : List κ} (h : path ≠ []) :
    t.find (k :: path) = (t.subtrie k).find path := by
  induction t with
  | leaf => rfl
  | branch key value c s _ ihs =>
    rw [find, subtrie, if_neg h, ihs]
    split <;> rfl

/-- There is no node of a key that is not at the top. -/
theorem find_eq_zero_of_notMem {t : Trie κ α} {k : κ} (h : k ∉ t.keys) (path : List κ) :
    t.find (k :: path) = 0 := by
  induction t with
  | leaf => rfl
  | branch key value c s _ ihs =>
    obtain ⟨hne, hrest⟩ := not_or.mp (List.mem_cons.not.mp h)
    rw [find_branch_of_ne (Ne.symm hne), ihs hrest]

/-- There is a node at every beginning of the path to a node. -/
theorem find_ne_zero_of_append {t : Trie κ α} {path rest : List κ} (hpath : path ≠ [])
    (h : t.find (path ++ rest) ≠ 0) : t.find path ≠ 0 := by
  induction t generalizing path with
  | leaf => exact absurd rfl h
  | branch key value c s ihc ihs =>
    cases path with
    | nil => exact absurd rfl hpath
    | cons k path =>
      rw [List.cons_append] at h
      by_cases hk : key = k
      · subst hk
        rw [find_branch_self] at h ⊢
        by_cases hnil : path = []
        · simp [hnil]
        · rw [if_neg hnil]
          rw [if_neg fun heq => hnil (List.append_eq_nil_iff.mp heq).1] at h
          exact ihc hnil h
      · rw [find_branch_of_ne hk] at h ⊢
        exact ihs (List.cons_ne_nil _ _) h

/-! ## Pruning -/

/-- Every node on the way to a path is kept. -/
def Kept (keep : α → Bool) (t : Trie κ α) (path : List κ) : Prop :=
  ∀ upTo, upTo ≠ [] → upTo <+: path → ∃ a : α, t.find upTo = a ∧ keep a = true

variable {keep : α → Bool}

theorem kept_cons_self {k : κ} {value : α} {c s : Trie κ α} {path : List κ} :
    Kept keep (branch k value c s) (k :: path) ↔ keep value = true ∧ Kept keep c path := by
  have hfirst : (branch k value c s).find [k] = value := if_pos rfl
  constructor
  · intro h
    constructor
    · obtain ⟨a, ha, hkeep⟩ := h [k] (List.cons_ne_nil _ _) ⟨path, rfl⟩
      rw [hfirst, WithZero.coe_inj] at ha
      rwa [ha]
    · intro upTo hne hprefix
      have := h (k :: upTo) (List.cons_ne_nil _ _) (List.cons_prefix_cons.mpr ⟨rfl, hprefix⟩)
      rwa [find_branch_self, if_neg hne] at this
  · rintro ⟨hkeep, h⟩ upTo hne hprefix
    cases upTo with
    | nil => exact absurd rfl hne
    | cons k' upTo =>
      obtain ⟨rfl, hrest⟩ := List.cons_prefix_cons.mp hprefix
      rw [find_branch_self]
      by_cases hnil : upTo = []
      · exact ⟨value, if_pos hnil, hkeep⟩
      · rw [if_neg hnil]
        exact h upTo hnil hrest

theorem kept_cons_of_ne {key k : κ} (hne : key ≠ k) {value : α} {c s : Trie κ α}
    {path : List κ} :
    Kept keep (branch key value c s) (k :: path) ↔ Kept keep s (k :: path) := by
  refine forall_congr' fun upTo => imp_congr_right fun hnil => imp_congr_right fun hprefix => ?_
  cases upTo with
  | nil => exact absurd rfl hnil
  | cons k' upTo =>
    obtain ⟨rfl, -⟩ := List.cons_prefix_cons.mp hprefix
    rw [find_branch_of_ne hne]

omit [DecidableEq κ] in
theorem mem_keys_of_mem_prune {t : Trie κ α} {k : κ} (h : k ∈ (t.prune keep).keys) :
    k ∈ t.keys := by
  induction t with
  | leaf => exact h
  | branch key value c s _ ihs =>
    rw [prune] at h
    split at h
    · rcases List.mem_cons.mp h with rfl | h
      · exact List.mem_cons_self
      · exact List.mem_cons_of_mem _ (ihs h)
    · exact List.mem_cons_of_mem _ (ihs h)

omit [DecidableEq κ] in
theorem Distinct.prune {t : Trie κ α} (h : t.Distinct) : (t.prune keep).Distinct := by
  induction t with
  | leaf => exact h
  | branch key value c s ihc ihs =>
    rw [Trie.prune]
    split
    · exact ⟨fun hmem => h.1 (mem_keys_of_mem_prune hmem), ihc h.2.1, ihs h.2.2⟩
    · exact ihs h.2.2

/-- **What pruning keeps**: the values under the paths on which every node is kept. -/
theorem find_prune {t : Trie κ α} (ht : t.Distinct) (path : List κ) (a : α) :
    (t.prune keep).find path = a ↔ t.find path = a ∧ t.Kept keep path := by
  have hzero : (0 : WithZero α) ≠ (a : WithZero α) := WithZero.zero_ne_coe
  induction t generalizing path with
  | leaf => simp [prune, hzero]
  | branch key value c s ihc ihs =>
    obtain ⟨hkey, hc, hs⟩ := ht
    cases path with
    | nil => simp [hzero]
    | cons k path =>
      by_cases hk : key = k
      · -- the path goes through this node
        subst hk
        rw [kept_cons_self, find_branch_self, prune]
        cases hkeep : keep value with
        | false =>
          have hgone : (s.prune keep).find (key :: path) = 0 :=
            find_eq_zero_of_notMem (fun hmem => hkey (mem_keys_of_mem_prune hmem)) path
          simp [hgone, hzero]
        | true =>
          rw [if_pos rfl, find_branch_self]
          by_cases hnil : path = []
          · subst hnil
            have hkept : Kept keep c [] := fun upTo hne hprefix =>
              absurd (List.prefix_nil.mp hprefix) hne
            simp [hkept]
          · simp [hnil, ihc hc]
      · -- the path goes past it
        have hprune : ((branch key value c s).prune keep).find (k :: path) =
            (s.prune keep).find (k :: path) := by
          rw [prune]
          split
          · exact find_branch_of_ne hk _ _ _ _
          · rfl
        rw [hprune, find_branch_of_ne hk, kept_cons_of_ne hk]
        exact ihs hs (k :: path)

/-! ## Nodes with what is below them -/

/-- What is below the node of a path. -/
def subtrieAt : Trie κ α → List κ → Trie κ α
  | t, [] => t
  | t, k :: path => (t.subtrie k).subtrieAt path

theorem find_append (t : Trie κ α) (path : List κ) {rest : List κ} (h : rest ≠ []) :
    t.find (path ++ rest) = (t.subtrieAt path).find rest := by
  induction path generalizing t with
  | nil => rfl
  | cons k path ih =>
    have hne : path ++ rest ≠ [] := fun heq => h (List.append_eq_nil_iff.mp heq).2
    rw [List.cons_append, find_cons_of_ne_nil t k hne, ih]
    rfl

/-- A property of the value of every node and of what is below it. -/
def Everywhere (p : α → Trie κ α → Prop) : Trie κ α → Prop
  | leaf => True
  | branch _ value children siblings =>
    p value children ∧ children.Everywhere p ∧ siblings.Everywhere p

theorem mem_keys_of_find_ne_zero {t : Trie κ α} {k : κ} {path : List κ}
    (h : t.find (k :: path) ≠ 0) : k ∈ t.keys := by
  by_contra hmem
  exact h (find_eq_zero_of_notMem hmem path)

/-- What holds under every path holds of every node. -/
theorem everywhere_of_find {p : α → Trie κ α → Prop} {t : Trie κ α} (ht : t.Distinct)
    (h : ∀ path (a : α), t.find path = a → p a (t.subtrieAt path)) : t.Everywhere p := by
  induction t with
  | leaf => trivial
  | branch key value c s ihc ihs =>
    obtain ⟨hkey, hc, hs⟩ := ht
    have hself : (branch key value c s).subtrie key = c := if_pos rfl
    refine ⟨?_, ihc hc ?_, ihs hs ?_⟩
    · have := h [key] value (if_pos rfl)
      rwa [subtrieAt, hself] at this
    · intro path a ha
      have hne : path ≠ [] := by
        rintro rfl
        rw [find_nil] at ha
        exact WithZero.zero_ne_coe ha
      have := h (key :: path) a (by rw [find_branch_self, if_neg hne, ha])
      rwa [subtrieAt, hself] at this
    · intro path a ha
      cases path with
      | nil =>
        rw [find_nil] at ha
        exact absurd ha WithZero.zero_ne_coe
      | cons k path =>
        have hmem : k ∈ s.keys := mem_keys_of_find_ne_zero (by rw [ha]; exact WithZero.coe_ne_zero)
        have hne : key ≠ k := fun heq => hkey (heq ▸ hmem)
        have := h (k :: path) a (by rw [find_branch_of_ne hne, ha])
        rwa [subtrieAt, subtrie, if_neg hne] at this

omit [DecidableEq κ] in
theorem Distinct.nodup_keys {t : Trie κ α} (h : t.Distinct) : t.keys.Nodup := by
  induction t with
  | leaf => exact List.nodup_nil
  | branch key value c s _ ihs => exact List.nodup_cons.mpr ⟨h.1, ihs h.2.2⟩

theorem Distinct.subtrie {t : Trie κ α} (h : t.Distinct) (k : κ) : (t.subtrie k).Distinct := by
  induction t with
  | leaf => exact h
  | branch key value c s _ ihs =>
    rw [Trie.subtrie]
    split
    · exact h.2.1
    · exact ihs h.2.2

theorem Distinct.subtrieAt {t : Trie κ α} (h : t.Distinct) (path : List κ) :
    (t.subtrieAt path).Distinct := by
  induction path generalizing t with
  | nil => exact h
  | cons k path ih => exact ih (h.subtrie k)

/-- The values at the top. -/
def values : Trie κ α → List α
  | leaf => []
  | branch _ value _ siblings => value :: siblings.values

omit [DecidableEq κ] in
/-- Pruning leaves some of the values at the top. -/
theorem values_prune_sublist (keep : α → Bool) (t : Trie κ α) :
    (t.prune keep).values.Sublist t.values := by
  induction t with
  | leaf => exact List.Sublist.refl _
  | branch key value c s _ ihs =>
    rw [prune, values]
    split
    · exact ihs.cons_cons value
    · exact ihs.cons value

/-- The values at the top are those under the keys. -/
theorem map_values_eq {t : Trie κ α} (h : t.Distinct) :
    t.values.map ((↑) : α → WithZero α) = t.keys.map fun k => t.find [k] := by
  induction t with
  | leaf => rfl
  | branch key value c s _ ihs =>
    obtain ⟨hkey, -, hs⟩ := h
    rw [values, keys, List.map_cons, List.map_cons, find_branch_self, if_pos rfl, ihs hs]
    congr 1
    apply List.map_congr_left
    intro k hk
    have hne : key ≠ k := fun heq => hkey (heq ▸ hk)
    rw [find_branch_of_ne hne]

end Find

/-! ## Adding -/

section Add

variable [DecidableEq κ] [AddCommMonoid α]

/-- A change to the node of a key: to its value and to what is below it.  Where there is no node,
one without value is put at the end. -/
def alter (k : κ) (f : α → Trie κ α → α × Trie κ α) : Trie κ α → Trie κ α
  | leaf => branch k (f 0 leaf).1 (f 0 leaf).2 leaf
  | branch key value children siblings =>
    if key = k then branch key (f value children).1 (f value children).2 siblings
    else branch key value children (siblings.alter k f)

/-- The value is added under the path. -/
def insert : List κ → α → Trie κ α → Trie κ α
  | [], _, t => t
  | k :: path, a, t =>
    t.alter k fun value children => (if path = [] then value + a else value, children.insert path a)

/-- The values of the other trie are added under their paths. -/
def merge : Trie κ α → Trie κ α → Trie κ α
  | t, leaf => t
  | t, branch key value children siblings =>
    (t.alter key fun value' children' => (value' + value, children'.merge children)).merge siblings

/-- The value of the node of a key, 0 as well when there is none. -/
def value (k : κ) : Trie κ α → α
  | leaf => 0
  | branch key value _ siblings => if key = k then value else siblings.value k

theorem find_singleton_add (t : Trie κ α) (k : κ) (a : α) :
    t.find [k] + (a : WithZero α) = (t.value k + a : α) := by
  induction t with
  | leaf => simp [value]
  | branch key value' c s _ ihs =>
    rw [find, value]
    split
    · simp
    · exact ihs

/-- **What a change keeps.** -/
theorem find_alter (t : Trie κ α) (k : κ) (f : α → Trie κ α → α × Trie κ α) (k' : κ)
    (path : List κ) :
    (t.alter k f).find (k' :: path) =
      if k = k' then
        if path = [] then ((f (t.value k) (t.subtrie k)).1 : WithZero α)
        else (f (t.value k) (t.subtrie k)).2.find path
      else t.find (k' :: path) := by
  induction t with
  | leaf => rfl
  | branch key value' c s _ ihs =>
    rw [alter, value, subtrie]
    by_cases hkey : key = k
    · subst hkey
      simp only [if_true, find]
      split <;> rfl
    · rw [if_neg hkey, if_neg hkey, if_neg hkey, find, find, ihs]
      by_cases hk : key = k'
      · subst hk
        simp [Ne.symm hkey]
      · simp [hk]

theorem mem_keys_alter {t : Trie κ α} {k k' : κ} {f : α → Trie κ α → α × Trie κ α}
    (h : k' ∈ (t.alter k f).keys) : k' = k ∨ k' ∈ t.keys := by
  induction t with
  | leaf => exact .inl (List.mem_singleton.mp h)
  | branch key value c s _ ihs =>
    rw [alter] at h
    split at h
    · exact .inr h
    · rcases List.mem_cons.mp h with rfl | h
      · exact .inr List.mem_cons_self
      · exact (ihs h).imp_right (List.mem_cons_of_mem _)

theorem Distinct.alter {t : Trie κ α} (h : t.Distinct) (k : κ)
    {f : α → Trie κ α → α × Trie κ α} (hf : ∀ a c, c.Distinct → (f a c).2.Distinct) :
    (t.alter k f).Distinct := by
  induction t with
  | leaf => exact ⟨List.not_mem_nil, hf 0 leaf trivial, trivial⟩
  | branch key value c s _ ihs =>
    obtain ⟨hkey, hc, hs⟩ := h
    rw [Trie.alter]
    split
    · exact ⟨hkey, hf _ _ hc, hs⟩
    · rename_i hne
      exact ⟨fun hmem => (mem_keys_alter hmem).elim hne hkey, hc, ihs hs⟩

/-- One value under one path, with the nodes that lead there. -/
def single (path : List κ) (a : α) (path' : List κ) : WithZero α :=
  if path' = [] then 0
  else if path' = path then a
  else if path' <+: path then (0 : α)
  else 0

theorem single_cons (k : κ) (path : List κ) (a : α) (k' : κ) (path' : List κ) :
    single (k :: path) a (k' :: path') =
      if k = k' then
        if path' = [] then ((if path = [] then a else 0 : α) : WithZero α)
        else single path a path'
      else 0 := by
  by_cases hk : k = k'
  · subst hk
    by_cases hpath' : path' = []
    · by_cases hpath : path = [] <;> simp [single, hpath', hpath, Ne.symm]
    · simp [single, hpath']
  · simp [single, hk, Ne.symm hk]

/-- **Adding a value** under a path. -/
theorem find_insert (path : List κ) (a : α) (t : Trie κ α) (path' : List κ) :
    (t.insert path a).find path' = t.find path' + single path a path' := by
  induction path generalizing t path' with
  | nil => by_cases h : path' = [] <;> simp [insert, single, h]
  | cons k path ih =>
    cases path' with
    | nil => simp [single]
    | cons k' path' =>
      rw [insert, find_alter, single_cons]
      by_cases hk : k = k'
      · subst hk
        by_cases hpath' : path' = []
        · subst hpath'
          rw [if_pos rfl, if_pos rfl, if_pos rfl, if_pos rfl, find_singleton_add]
          split <;> simp
        · simp only [if_true, if_neg hpath', ih, find_cons_of_ne_nil t k hpath']
      · simp [hk]

/-- **Many values**, each under its path: the values under the path itself add up, and there is a
node when it leads to any of them. -/
theorem sum_single {β : Type*} (l : List β) (place : β → List κ) (a : β → α) {path : List κ}
    (hpath : path ≠ []) :
    (l.map fun x => single (place x) (a x)).sum path =
      if ∃ x ∈ l, path <+: place x then
        ((((l.filter fun x => place x = path).map a).sum : α) : WithZero α)
      else 0 := by
  induction l with
  | nil => simp
  | cons x l ih =>
    rw [List.map_cons, List.sum_cons, Pi.add_apply, ih, single, if_neg hpath]
    by_cases hx : path = place x
    · -- a value under the path itself
      subst hx
      by_cases hrest : ∃ y ∈ l, place x <+: place y
      · simp [hrest]
      · have hnone : l.filter (fun y => place y = place x) = [] := by
          rw [List.filter_eq_nil_iff]
          intro y hy heq
          exact hrest ⟨y, hy, (of_decide_eq_true heq).symm ▸ List.prefix_rfl⟩
        simp [hrest, hnone]
    · have hskip : (x :: l).filter (fun y => place y = path) = l.filter fun y => place y = path :=
        List.filter_cons_of_neg (by simp [Ne.symm hx])
      rw [if_neg hx, hskip]
      by_cases hbehind : path <+: place x
      · -- a value behind the path
        by_cases hrest : ∃ y ∈ l, path <+: place y
        · simp [hbehind, hrest, ← WithZero.coe_add]
        · have hnone : l.filter (fun y => place y = path) = [] := by
            rw [List.filter_eq_nil_iff]
            intro y hy heq
            exact hrest ⟨y, hy, (of_decide_eq_true heq).symm ▸ List.prefix_rfl⟩
          simp [hbehind, hrest, hnone]
      · simp [hbehind]

theorem Distinct.insert {t : Trie κ α} (h : t.Distinct) (path : List κ) (a : α) :
    (t.insert path a).Distinct := by
  induction path generalizing t with
  | nil => exact h
  | cons k path ih => exact h.alter k fun _ _ hc => ih hc

/-- **Merging adds up.** -/
theorem find_merge (t : Trie κ α) {other : Trie κ α} (h : other.Distinct) (path : List κ) :
    (t.merge other).find path = t.find path + other.find path := by
  induction other generalizing t path with
  | leaf => simp [merge]
  | branch key value c s ihc ihs =>
    obtain ⟨hkey, hc, hs⟩ := h
    rw [merge, ihs _ hs]
    cases path with
    | nil => simp
    | cons k path =>
      rw [find_alter, find]
      by_cases hk : key = k
      · subst hk
        rw [find_eq_zero_of_notMem hkey, add_zero, if_pos rfl, if_pos rfl]
        by_cases hpath : path = []
        · subst hpath
          rw [if_pos rfl, if_pos rfl, find_singleton_add]
        · rw [if_neg hpath, if_neg hpath, ihc _ hc, find_cons_of_ne_nil t key hpath]
      · rw [if_neg hk, if_neg hk]

theorem Distinct.merge {t : Trie κ α} (ht : t.Distinct) (other : Trie κ α) :
    (t.merge other).Distinct := by
  induction other generalizing t with
  | leaf => exact ht
  | branch key value c s ihc ihs => exact ihs (ht.alter key fun _ _ hc => ihc hc)

end Add

end Trie

end PhpSpx.Lib
