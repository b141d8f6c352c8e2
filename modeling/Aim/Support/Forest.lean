import Mathlib

/-!
# Support — Forests of parent links

A list of nodes, each with an identifier and the identifier of its parent.  A parent need not be in
the list; a node may be its own parent only if it is the root `r`.

* `Ranked`: the links other than the root's go down in some rank, so they make no cycle.  Kept when
  nodes leave (`Ranked.subset`), when a leaf is added (`Ranked.leaf`), and when nodes are given new
  parents that lie strictly nearer to the root by a measure the other links do not increase
  (`Ranked.regraft`).  Renaming the identifiers one to one keeps it too (`Ranked.rename`).
* `reaches_root`: when every parent is in the list, every node reaches the root.
* `growAll`: the nodes under one, found by passes over the list until one adds nothing
  (`mem_growAll`), which are those with a chain of links to it (`under_iff`).
-/

namespace Forest

open List Nat

variable {ν : Type} (id parent : ν → ℕ)

/-- A link from a node to its parent. -/
def Link (ns : List ν) (a b : ν) : Prop := a ∈ ns ∧ b ∈ ns ∧ parent a = id b

/-- The links of the nodes other than `r` go down in some rank. -/
def Ranked (r : ℕ) (ns : List ν) : Prop :=
  ∃ d : ℕ → ℕ, ∀ a ∈ ns, id a ≠ r → ∀ b ∈ ns, id b = parent a → d (id b) < d (id a)

variable {id parent} {r : ℕ} {ns ns' : List ν}

theorem Ranked.subset (h : Ranked id parent r ns) (hs : ns' ⊆ ns) : Ranked id parent r ns' := by
  obtain ⟨d, hd⟩ := h
  exact ⟨d, fun a ha hr b hb => hd a (hs ha) hr b (hs hb)⟩

variable {a : ν}

/-- No node but the root is its own parent. -/
theorem Ranked.eq_root (h : Ranked id parent r ns) (ha : a ∈ ns) (hp : parent a = id a) :
    id a = r := by
  obtain ⟨d, hd⟩ := h
  by_contra hr
  exact lt_irrefl _ (hd a ha hr a ha hp.symm)

theorem exists_bound (d : ν → ℕ) (ns : List ν) : ∃ D, ∀ a ∈ ns, d a < D := by
  induction ns with
  | nil => exact ⟨0, by simp⟩
  | cons a ns ih =>
    obtain ⟨D, hD⟩ := ih
    refine ⟨max (d a + 1) D, fun b hb => ?_⟩
    rcases mem_cons.1 hb with rfl | hb
    · exact lt_of_lt_of_le (lt_succ_self _) (le_max_left _ _)
    · exact lt_of_lt_of_le (hD b hb) (le_max_right _ _)

/-- A node that is nobody's parent may be given the highest rank, whatever its own parent is. -/
theorem Ranked.leaf (h : Ranked id parent r ns) {x : ν} (hn : ∀ a ∈ ns, parent a ≠ id x)
    (hx : ∀ a ∈ ns, id a ≠ id x) (hp : parent x ≠ id x) : Ranked id parent r (ns ++ [x]) := by
  obtain ⟨d, hd⟩ := h
  obtain ⟨D, hD⟩ := exists_bound (fun a => d (id a)) ns
  refine ⟨fun i => if i = id x then D else d i, fun a ha hr b hb hl => ?_⟩
  dsimp only
  simp only [mem_append, mem_singleton] at ha hb
  rcases hb with hb | rfl
  · rw [if_neg (hx b hb)]
    rcases ha with ha | rfl
    · rw [if_neg (hx a ha)]
      exact hd a ha hr b hb hl
    · rw [if_pos rfl]
      exact hD b hb
  · rcases ha with ha | rfl
    · exact absurd hl.symm (hn a ha)
    · exact absurd hl.symm hp

/-- **Regrafting.**  Of the nodes `ns` some are left, and some of those have new parents.  Every link
is an old one that `len` does not increase along, or goes down in `len`. -/
theorem Ranked.regraft (h : Ranked id parent r ns) (len : ℕ → ℕ)
    (hsub : ∀ a ∈ ns', ∃ a₀ ∈ ns, id a₀ = id a)
    (hl : ∀ a ∈ ns', id a ≠ r → ∀ b ∈ ns', id b = parent a → len (id b) < len (id a) ∨
      len (id b) ≤ len (id a) ∧ ∃ a₀ ∈ ns, id a₀ = id a ∧ parent a₀ = parent a) :
    Ranked id parent r ns' := by
  obtain ⟨d, hd⟩ := h
  obtain ⟨D, hD⟩ := exists_bound (fun a => d (id a)) ns
  -- first by `len`, then by the old rank
  refine ⟨fun i => len i * D + d i, fun a ha hr b hb hab => ?_⟩
  obtain ⟨b₀, hb₀, hbb⟩ := hsub b hb
  dsimp only
  rcases hl a ha hr b hb hab with hlt | ⟨hle, a₀, ha₀, haa, hp⟩
  · have hbD : d (id b) < D := hbb ▸ hD b₀ hb₀
    have : (len (id b) + 1) * D ≤ len (id a) * D := mul_le_mul_right D hlt
    rw [Nat.add_mul] at this
    omega
  · have hlink : d (id b₀) < d (id a₀) :=
      hd a₀ ha₀ (by rw [haa]; exact hr) b₀ hb₀ (by rw [hbb, hab, hp])
    rw [hbb, haa] at hlink
    have := mul_le_mul_right D hle
    omega

/-- The nodes are renamed, one to one. -/
theorem Ranked.rename (h : Ranked id parent r ns) {f : ℕ → ℕ}
    (hf : Set.InjOn f {i | i ∈ ns.map id}) {g : ν → ν}
    (hid : ∀ a ∈ ns, id (g a) = f (id a)) (hp : ∀ a ∈ ns, parent (g a) = f (parent a))
    (hc : ∀ a ∈ ns, parent a ∈ ns.map id) : Ranked id parent (f r) (ns.map g) := by
  obtain ⟨d, hd⟩ := h
  have hinv : ∀ a ∈ ns, Function.invFunOn f {i | i ∈ ns.map id} (f (id a)) = id a :=
    fun a ha => hf.leftInvOn_invFunOn (mem_map_of_mem ha)
  refine ⟨fun i => d (Function.invFunOn f {i | i ∈ ns.map id} i), fun a' ha' hne b' hb' hl => ?_⟩
  obtain ⟨a, ha, rfl⟩ := mem_map.1 ha'
  obtain ⟨b, hb, rfl⟩ := mem_map.1 hb'
  rw [hid a ha] at hne ⊢
  rw [hid b hb] at hl ⊢
  rw [hp a ha] at hl
  dsimp only
  rw [hinv a ha, hinv b hb]
  exact hd a ha (fun he => hne (by rw [he])) b hb
    (hf (mem_map_of_mem hb) (hc a ha) hl)

/-- A function of the nodes is a function of their identifiers, when these are distinct. -/
theorem exists_of_nodup {β : Type} [Inhabited β] (val : ν → β) (hn : (ns.map id).Nodup) :
    ∃ g : ℕ → β, ∀ a ∈ ns, g (id a) = val a := by
  classical
  refine ⟨fun i => ((ns.find? fun a => id a = i).map val).getD default, fun a ha => ?_⟩
  cases hf : ns.find? fun b => id b = id a with
  | none => simpa using find?_eq_none.1 hf a ha
  | some b =>
    have hb : id b = id a := by simpa using find?_some hf
    dsimp only
    rw [hf, inj_on_of_nodup_map hn (mem_of_find?_eq_some hf) ha hb]
    rfl

/-- **Every node reaches the root.** -/
theorem reaches_root (h : Ranked id parent r ns) (hc : ∀ a ∈ ns, ∃ b ∈ ns, parent a = id b)
    {x : ν} (hx : ∀ a ∈ ns, id a = r → a = x) (ha : a ∈ ns) :
    Relation.ReflTransGen (Link id parent ns) a x := by
  obtain ⟨d, hd⟩ := h
  induction hk : d (id a) using Nat.strongRecOn generalizing a with
  | _ k ih =>
    subst hk
    by_cases hr : id a = r
    · rw [hx a ha hr]
    · obtain ⟨b, hb, hl⟩ := hc a ha
      exact .head ⟨ha, hb, hl⟩ (ih _ (hd a ha hr b hb hl.symm) hb rfl)

/-! ### The nodes under one -/

variable (id parent)

/-- One pass: the nodes whose parents are in the set join it. -/
def grow : List ν → Finset ℕ → Finset ℕ
  | [], s => s
  | a :: ns, s => grow ns (if parent a ∈ s then insert (id a) s else s)

/-- Passes until one adds nothing. -/
def growAll (ns : List ν) : ℕ → Finset ℕ → Finset ℕ
  | 0, s => s
  | n + 1, s =>
    let s' := grow id parent ns s
    if s'.card = s.card then s' else growAll ns n s'

/-- The identifier is `t`, or that of a node below it. -/
def Under (ns : List ν) (t i : ℕ) : Prop :=
  Relation.ReflTransGen (fun i j => ∃ a ∈ ns, id a = i ∧ parent a = j) i t

variable {id parent}

theorem subset_grow (ns : List ν) (s : Finset ℕ) : s ⊆ grow id parent ns s := by
  induction ns generalizing s with
  | nil => exact Finset.Subset.refl s
  | cons a ns ih =>
    refine Finset.Subset.trans ?_ (ih _)
    split_ifs
    · exact Finset.subset_insert _ _
    · exact Finset.Subset.refl s

variable {s : Finset ℕ}

theorem mem_grow_of_parent (ha : a ∈ ns) (hp : parent a ∈ s) : id a ∈ grow id parent ns s := by
  induction ns generalizing s with
  | nil => cases ha
  | cons b ns ih =>
    rcases mem_cons.1 ha with rfl | ha
    · refine subset_grow ns _ ?_
      rw [if_pos hp]
      exact Finset.mem_insert_self _ _
    · refine ih ha ?_
      split_ifs
      · exact Finset.mem_insert_of_mem hp
      · exact hp

variable {P : ℕ → Prop}

/-- What a pass adds is an identifier of a node. -/
theorem grow_induct (hs : ∀ i ∈ s, P i)
    (hP : ∀ a ∈ ns, P (parent a) → P (id a)) : ∀ i ∈ grow id parent ns s, P i := by
  induction ns generalizing s with
  | nil => exact hs
  | cons a ns ih =>
    refine ih ?_ fun b hb => hP b (.tail _ hb)
    intro i hi
    split_ifs at hi with hp
    · rcases Finset.mem_insert.1 hi with rfl | hi
      · exact hP a (.head _) (hs _ hp)
      · exact hs i hi
    · exact hs i hi

theorem growAll_induct (n : ℕ) (hs : ∀ i ∈ s, P i)
    (hP : ∀ a ∈ ns, P (parent a) → P (id a)) : ∀ i ∈ growAll id parent ns n s, P i := by
  induction n generalizing s with
  | zero => exact hs
  | succ n ih =>
    rw [growAll]
    split_ifs
    · exact grow_induct hs hP
    · exact ih (grow_induct hs hP)

theorem subset_growAll (n : ℕ) (s : Finset ℕ) : s ⊆ growAll id parent ns n s := by
  induction n generalizing s with
  | zero => exact Finset.Subset.refl s
  | succ n ih =>
    rw [growAll]
    split_ifs
    · exact subset_grow ns s
    · exact Finset.Subset.trans (subset_grow ns s) (ih _)

/-- With as many passes as nodes, and one more, the last adds nothing. -/
theorem grow_growAll {n : ℕ} (hn : ((ns.map id).toFinset \ s).card < n) :
    grow id parent ns (growAll id parent ns n s) = growAll id parent ns n s := by
  induction n generalizing s with
  | zero => exact absurd hn (not_lt_zero _)
  | succ n ih =>
    rw [growAll]
    split_ifs with hc
    · have he : grow id parent ns s = s :=
        (Finset.eq_of_subset_of_card_le (subset_grow ns s) (le_of_eq hc)).symm
      rw [he, he]
    -- the pass has added an identifier of a node
    refine ih (Nat.lt_of_lt_of_le (Finset.card_lt_card ?_) (Nat.lt_succ_iff.1 hn))
    have hss : s ⊂ grow id parent ns s := by
      refine (Finset.ssubset_iff_subset_ne).2 ⟨subset_grow ns s, fun he => hc ?_⟩
      rw [← he]
    obtain ⟨i, hi, his⟩ := Finset.exists_of_ssubset hss
    have hid : ∀ j ∈ grow id parent ns s, j ∈ s ∨ j ∈ ns.map id :=
      grow_induct (fun j hj => .inl hj) fun a ha _ => .inr (mem_map.2 ⟨a, ha, rfl⟩)
    refine (Finset.ssubset_iff_of_subset ?_).2 ⟨i, ?_, ?_⟩
    · exact Finset.sdiff_subset_sdiff (Finset.Subset.refl _) (subset_grow ns s)
    · exact Finset.mem_sdiff.2 ⟨mem_toFinset.2 ((hid i hi).resolve_left his), his⟩
    · exact fun h => (Finset.mem_sdiff.1 h).2 hi

/-- **The passes find the nodes under `t`.** -/
theorem mem_growAll (ns : List ν) (t i : ℕ) :
    i ∈ growAll id parent ns (ns.length + 1) {t} ↔ Under id parent ns t i := by
  constructor
  · intro hi
    refine growAll_induct (P := Under id parent ns t) (ns.length + 1) ?_ ?_ i hi
    · intro j hj
      rw [Finset.mem_singleton.1 hj]
      exact .refl
    · exact fun a ha hp => .head ⟨a, ha, rfl, rfl⟩ hp
  · intro hu
    have hcard : ((ns.map id).toFinset \ {t}).card < ns.length + 1 := by
      refine lt_succ_of_le (le_trans (Finset.card_le_card Finset.sdiff_subset) ?_)
      simpa using toFinset_card_le (ns.map id)
    induction hu using Relation.ReflTransGen.head_induction_on with
    | refl => exact subset_growAll _ _ (Finset.mem_singleton_self t)
    | head hl _ ih =>
      obtain ⟨a, ha, rfl, rfl⟩ := hl
      rw [← grow_growAll hcard]
      exact mem_grow_of_parent ha ih

/-- **Under is below.**  With distinct identifiers, a chain of identifiers is a chain of nodes. -/
theorem under_iff (hn : (ns.map id).Nodup) {b : ν} (ha : a ∈ ns) (hb : b ∈ ns) :
    Under id parent ns (id b) (id a) ↔ Relation.ReflTransGen (Link id parent ns) a b := by
  constructor
  · intro hu
    have hchain : ∀ i, Under id parent ns (id b) i → ∀ a ∈ ns, id a = i →
        Relation.ReflTransGen (Link id parent ns) a b := by
      intro i hi
      induction hi using Relation.ReflTransGen.head_induction_on with
      | refl =>
        intro a ha he
        rw [inj_on_of_nodup_map hn ha hb he]
      | head hl hrest ih =>
        rintro a ha rfl
        obtain ⟨a', ha', he, rfl⟩ := hl
        obtain rfl := inj_on_of_nodup_map hn ha' ha he
        -- the next identifier is that of a node: of `b`, or of one with a further link
        rcases Relation.ReflTransGen.cases_head hrest with he | ⟨j, ⟨c, hc, hcid, -⟩, -⟩
        · exact .head ⟨ha, hb, he⟩ (ih b hb he.symm)
        · exact .head ⟨ha, hc, hcid.symm⟩ (ih c hc hcid)
    exact hchain _ hu a ha rfl
  · intro hl
    exact hl.lift id fun _ _ ⟨hx, _, he⟩ => ⟨_, hx, rfl, he⟩

end Forest
