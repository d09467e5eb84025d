import HttpEcho.Json.Value
import Mathlib.Data.List.Forall2
import Mathlib.Data.String.Basic

/-! Objects as maps.

`IsMapOf pairs vs` says, without reference to how it is built, that `vs` is the map of `pairs`:
ascending names, and under each name what the last pair of that name gives it. There is one map
of given pairs (`IsMapOf.unique`), inserting them one after another builds it (`isMapOf_insertAll`),
and ascending pairs are their own map (`Ascending.isMapOf`). -/
namespace HttpEcho.Json

/-- Names that strictly ascend, so each is there once. -/
def Ascending (vs : List (String × Value)) : Prop :=
  vs.Pairwise fun a b => a.1 < b.1

/-- The map of pairs, the last of a name counting. -/
structure IsMapOf (pairs vs : List (String × Value)) : Prop where
  ascending : Ascending vs
  lookup : ∀ name, vs.lookup name = pairs.reverse.lookup name

/-- Inserts pairs, from the first to the last. -/
def insertAll (known pairs : List (String × Value)) : List (String × Value) :=
  pairs.foldl (fun known p => insert p.1 p.2 known) known

/-! ### Inserting -/

theorem mem_insert {name : String} {v : Value} {vs : List (String × Value)} {p : String × Value}
    (h : p ∈ insert name v vs) : p = (name, v) ∨ p ∈ vs := by
  induction vs with
  | nil => exact Or.inl (List.mem_singleton.mp h)
  | cons q vs ih =>
    obtain ⟨k, w⟩ := q
    unfold insert at h
    by_cases heq : name = k
    · rw [if_pos heq] at h
      exact (List.mem_cons.mp h).imp_right (List.mem_cons_of_mem _)
    rw [if_neg heq] at h
    by_cases hlt : name < k
    · rw [if_pos hlt] at h
      exact List.mem_cons.mp h
    · rw [if_neg hlt] at h
      rcases List.mem_cons.mp h with rfl | h
      · exact Or.inr List.mem_cons_self
      · exact (ih h).imp_right (List.mem_cons_of_mem _)

theorem Ascending.insert {vs : List (String × Value)} (h : Ascending vs) (name : String)
    (v : Value) : Ascending (insert name v vs) := by
  induction vs with
  | nil => exact List.pairwise_singleton _ _
  | cons q vs ih =>
    obtain ⟨k, w⟩ := q
    obtain ⟨hk, hvs⟩ := List.pairwise_cons.mp h
    unfold Json.insert
    by_cases heq : name = k
    · rw [if_pos heq]
      subst heq
      exact List.pairwise_cons.mpr ⟨hk, hvs⟩
    rw [if_neg heq]
    by_cases hlt : name < k
    · rw [if_pos hlt]
      refine List.pairwise_cons.mpr ⟨fun p hp => ?_, h⟩
      rcases List.mem_cons.mp hp with rfl | hp
      · exact hlt
      · exact String.lt_trans hlt (hk p hp)
    · rw [if_neg hlt]
      refine List.pairwise_cons.mpr ⟨fun p hp => ?_, ih hvs⟩
      rcases mem_insert hp with rfl | hp
      · exact lt_of_le_of_ne (not_lt.mp hlt) (Ne.symm heq)
      · exact hk p hp

theorem lookup_insert (name : String) (v : Value) (vs : List (String × Value)) (n : String) :
    (insert name v vs).lookup n = ((name, v) :: vs).lookup n := by
  induction vs with
  | nil => rfl
  | cons q vs ih =>
    obtain ⟨k, w⟩ := q
    unfold insert
    by_cases heq : name = k
    · subst heq
      rw [if_pos rfl]
      by_cases hn : n = name
      · subst hn
        rw [List.lookup_cons_self, List.lookup_cons_self]
      · have hne : (n == name) = false := beq_false_of_ne hn
        simp only [List.lookup_cons, hne]
    rw [if_neg heq]
    by_cases hlt : name < k
    · rw [if_pos hlt]
    · rw [if_neg hlt]
      by_cases hn : n = k
      · have hne : (n == name) = false := beq_false_of_ne fun he => heq (he.symm.trans hn)
        simp only [List.lookup_cons, hne, beq_iff_eq.mpr hn]
      · have hne : (n == k) = false := beq_false_of_ne hn
        simp only [List.lookup_cons, hne] at ih ⊢
        exact ih

theorem IsMapOf.nil : IsMapOf [] [] := ⟨List.Pairwise.nil, fun _ => rfl⟩

theorem IsMapOf.insert {pairs vs : List (String × Value)} (h : IsMapOf pairs vs) (name : String)
    (v : Value) : IsMapOf (pairs ++ [(name, v)]) (insert name v vs) := by
  refine ⟨h.ascending.insert name v, fun n => ?_⟩
  rw [lookup_insert, List.reverse_append, List.reverse_singleton, List.singleton_append]
  simp only [List.lookup_cons, h.lookup n]

theorem IsMapOf.insertAll {before vs : List (String × Value)} (h : IsMapOf before vs)
    (pairs : List (String × Value)) : IsMapOf (before ++ pairs) (insertAll vs pairs) := by
  induction pairs generalizing before vs with
  | nil =>
    rw [List.append_nil]
    exact h
  | cons p pairs ih =>
    rw [List.append_cons]
    exact ih (h.insert p.1 p.2)

theorem isMapOf_insertAll (pairs : List (String × Value)) : IsMapOf pairs (insertAll [] pairs) :=
  IsMapOf.nil.insertAll pairs

/-! ### There is one map -/

theorem mem_iff_lookup {vs : List (String × Value)} (h : (vs.map Prod.fst).Nodup) {name : String}
    {v : Value} : (name, v) ∈ vs ↔ vs.lookup name = some v := by
  rw [List.lookup_eq_some_iff]
  constructor
  · intro hmem
    obtain ⟨before, after, rfl⟩ := List.append_of_mem hmem
    refine ⟨before, after, rfl, fun p hp => ?_⟩
    rw [List.map_append, List.nodup_append] at h
    exact bne_iff_ne.mpr fun he =>
      h.2.2 p.1 (List.mem_map_of_mem hp) name List.mem_cons_self he.symm
  · intro hlookup
    obtain ⟨before, after, rfl, -⟩ := hlookup
    exact List.mem_append_right _ List.mem_cons_self

theorem ne_of_lt {a b : String} (h : a < b) : a ≠ b := by
  intro he
  subst he
  exact String.lt_irrefl a h

theorem Ascending.nodup {vs : List (String × Value)} (h : Ascending vs) :
    (vs.map Prod.fst).Nodup :=
  List.pairwise_map.mpr (h.imp ne_of_lt)

theorem Ascending.eq_of_lookup {vs ws : List (String × Value)} (hvs : Ascending vs)
    (hws : Ascending ws) (h : ∀ name, vs.lookup name = ws.lookup name) : vs = ws := by
  have hmem : ∀ p, p ∈ vs ↔ p ∈ ws := fun p => by
    rw [mem_iff_lookup hvs.nodup, mem_iff_lookup hws.nodup, h]
  have hnodup : ∀ us, Ascending us → us.Nodup := fun us hus =>
    hus.imp fun hlt he => ne_of_lt hlt (congrArg Prod.fst he)
  have hperm : vs.Perm ws :=
    (List.perm_ext_iff_of_nodup (hnodup vs hvs) (hnodup ws hws)).mpr hmem
  exact hperm.eq_of_pairwise (fun a b _ _ hab hba => absurd hba (String.lt_asymm hab)) hvs hws

theorem IsMapOf.subset {pairs vs : List (String × Value)} (h : IsMapOf pairs vs) :
    ∀ p ∈ vs, p ∈ pairs := by
  intro p hp
  obtain ⟨name, v⟩ := p
  have hlookup := (mem_iff_lookup h.ascending.nodup).mp hp
  rw [h.lookup, List.lookup_eq_some_iff] at hlookup
  obtain ⟨before, after, hpairs, -⟩ := hlookup
  rw [← List.mem_reverse, hpairs]
  exact List.mem_append_right _ List.mem_cons_self

/-- Every name of the pairs is one of the map. -/
theorem IsMapOf.mem_names {pairs vs : List (String × Value)} (h : IsMapOf pairs vs)
    {p : String × Value} (hp : p ∈ pairs) : p.1 ∈ vs.map Prod.fst := by
  have hsome : (vs.lookup p.1).isSome := by
    rw [h.lookup, List.lookup_isSome_iff]
    exact ⟨p, List.mem_reverse.mpr hp, beq_self_eq_true _⟩
  obtain ⟨v, hv⟩ := Option.isSome_iff_exists.mp hsome
  exact List.mem_map.mpr ⟨(p.1, v), (mem_iff_lookup h.ascending.nodup).mpr hv, rfl⟩

theorem Ascending.of_names {vs ws : List (String × Value)} (h : Ascending vs)
    (hnames : ws.map Prod.fst = vs.map Prod.fst) : Ascending ws := by
  have hpairwise : (ws.map Prod.fst).Pairwise (· < ·) := by
    rw [hnames]
    exact List.pairwise_map.mpr h
  exact List.pairwise_map.mp hpairwise

theorem IsMapOf.unique {pairs vs ws : List (String × Value)} (hvs : IsMapOf pairs vs)
    (hws : IsMapOf pairs ws) : vs = ws :=
  hvs.ascending.eq_of_lookup hws.ascending fun name =>
    (hvs.lookup name).trans (hws.lookup name).symm

/-- Ascending pairs are their own map. -/
theorem Ascending.isMapOf {vs : List (String × Value)} (h : Ascending vs) : IsMapOf vs vs := by
  refine ⟨h, fun name => Option.ext fun v => ?_⟩
  have hreverse : (vs.reverse.map Prod.fst).Nodup := by
    rw [List.map_reverse]
    exact List.pairwise_reverse.mpr (h.nodup.imp Ne.symm)
  rw [← mem_iff_lookup h.nodup, ← mem_iff_lookup hreverse, List.mem_reverse]

/-- **A map is built by inserting**, whatever the order of its pairs. -/
theorem isMapOf_iff {pairs vs : List (String × Value)} :
    IsMapOf pairs vs ↔ insertAll [] pairs = vs := by
  constructor
  · exact fun h => (isMapOf_insertAll pairs).unique h
  · intro he
    subst he
    exact isMapOf_insertAll pairs

/-! ### Maps that go along with other pairs -/

/-- Under a name, pairs have what goes along with what is there in the pairs that they go along
with. -/
theorem rel_lookup {α β : Type} {R : α → β → Prop} {xs : List (String × α)} {ys : List (String × β)}
    (h : List.Forall₂ (fun x y => x.1 = y.1 ∧ R x.2 y.2) xs ys) (name : String) :
    Option.Rel R (xs.lookup name) (ys.lookup name) := by
  induction h with
  | nil => exact .none
  | @cons x y xs ys hxy _ ih =>
    obtain ⟨k, a⟩ := x
    obtain ⟨l, b⟩ := y
    obtain ⟨hkl, hab⟩ := hxy
    simp only at hkl hab
    subst hkl
    by_cases hname : name = k
    · subst hname
      rw [List.lookup_cons_self, List.lookup_cons_self]
      exact .some hab
    · have hne : (name == k) = false := beq_false_of_ne hname
      simp only [List.lookup_cons, hne]
      exact ih

/-- All of a map is so when all is so that it goes along with, and that is the last of its name. -/
theorem IsMapOf.forall_iff {α : Type} {P : α → Prop} {Q : Value → Prop} {ms : List (String × α)}
    {pairs vs : List (String × Value)} (hmap : IsMapOf pairs vs)
    (h : List.Forall₂ (fun m p => m.1 = p.1 ∧ (Q p.2 ↔ P m.2)) ms pairs) :
    (∀ p ∈ vs, Q p.2) ↔ ∀ name a, ms.reverse.lookup name = some a → P a := by
  have hrel := rel_lookup (R := fun a v => Q v ↔ P a) (List.forall₂_reverse_iff.mpr h)
  have hmem : ∀ name v, (name, v) ∈ vs ↔ pairs.reverse.lookup name = some v := fun name v => by
    rw [mem_iff_lookup hmap.ascending.nodup, hmap.lookup]
  constructor
  · intro hall name a ha
    have hname := hrel name
    rw [ha] at hname
    generalize hv : pairs.reverse.lookup name = found at hname
    cases hname with
    | some hiff => exact hiff.mp (hall _ ((hmem name _).mpr hv))
  · intro hall p hp
    obtain ⟨name, v⟩ := p
    have hname := hrel name
    rw [(hmem name v).mp hp] at hname
    generalize ha : ms.reverse.lookup name = found at hname
    cases hname with
    | some hiff => exact hiff.mpr (hall name _ ha)

end HttpEcho.Json
