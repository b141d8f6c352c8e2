import Aim.Props.ContextFile

/-!
# Props — The context of a property

The search of a serialized trie finds the context of the exact entry with the name of the property,
and else that of the longest prefix of the name (`context_of_longest_prefix`), for names without a
zero byte: `strncmp` stops at one, and the binary search takes a name that goes on after a zero byte
for the child that ends there (`zero_byte_finds_child`).

* `find_child` and the two scans against the lists of a node.
* `lookup_run`: a search from a node finds what `exactAt` and `prefixAt` have.
-/

namespace Aim.Props.Contexts

open Memory List Option Nat Bytes
open BuilderNode (childNamed prefixAt exactAt IsSegment Fine Wf)

variable {m : Memory} {contexts : List Bytes} {f : Option Bytes} {ty : ℕ}

/-! ### Comparisons -/

theorem strncmp_cons_ne {c d : UInt8} (h : c ≠ d) (s t : Bytes) (n : ℕ) :
    strncmp (c :: s) (d :: t) (n + 1) = (c.toNat : ℤ) - d.toNat := if_pos h

theorem strncmp_cons {c : UInt8} (h : c ≠ 0) (s t : Bytes) (n : ℕ) :
    strncmp (c :: s) (c :: t) (n + 1) = strncmp s t n :=
  (if_neg (not_not.2 rfl)).trans (if_neg h)

variable {s : Bytes} {r : Bytes}

theorem strncmp_prefix (hs : ∀ c ∈ s, c ≠ 0) (hlen : s.length ≤ r.length) :
    strncmp s r s.length = 0 ↔ s <+: r := by
  induction s generalizing r with
  | nil => simp [strncmp]
  | cons c s ih =>
    rcases r with - | ⟨d, r⟩
    · cases hlen
    obtain ⟨hc, hs⟩ := forall_mem_cons.1 hs
    rw [length_cons, cons_prefix_cons]
    by_cases hcd : c = d
    · subst hcd
      rw [strncmp_cons hc, ih hs (le_of_succ_le_succ hlen)]
      exact (and_iff_right rfl).symm
    · rw [strncmp_cons_ne hcd]
      refine ⟨fun h => absurd ?_ hcd, fun h => absurd h.1 hcd⟩
      exact UInt8.toNat_inj.1 (by omega)

/-- The order of the children is that of byte strings. -/
theorem compareChild_spec {t : Bytes} (hs : ∀ c ∈ s, c ≠ 0) (ht : ∀ c ∈ t, c ≠ 0) :
    (compareChild s t = 0 ↔ s = t) ∧ (compareChild s t < 0 ↔ s.less t = true) := by
  induction s generalizing t with
  | nil =>
    rcases t with - | ⟨d, t⟩
    · simp [compareChild, strncmp, Bytes.less]
    obtain ⟨hd, -⟩ := forall_mem_cons.1 ht
    have hpos : 0 < d.toNat := Nat.pos_of_ne_zero fun h => hd (UInt8.toNat_inj.1 h)
    have hcmp : compareChild [] (d :: t) = 0 - (d.toNat : ℤ) := by
      have hmin : min (d :: t).length (([] : Bytes).length + 1) = 1 := by simp
      have hne : strncmp [] (d :: t) 1 = 0 - (d.toNat : ℤ) := if_pos (Ne.symm hd)
      rw [compareChild, hmin, hne]
      exact if_neg fun h => absurd h.2 (not_lt_zero _)
    rw [hcmp]
    exact ⟨⟨fun h => by omega, by simp⟩, ⟨fun _ => rfl, fun _ => by omega⟩⟩
  | cons c s ih =>
    rcases t with - | ⟨d, t⟩
    · simp [compareChild, strncmp, Bytes.less]
    obtain ⟨hc, hs⟩ := forall_mem_cons.1 hs
    obtain ⟨-, ht'⟩ := forall_mem_cons.1 ht
    have hmin : min (d :: t).length ((c :: s).length + 1) = min t.length (s.length + 1) + 1 := by
      simp only [length_cons]
      omega
    by_cases hcd : c = d
    · subst hcd
      have hcmp : compareChild (c :: s) (c :: t) = compareChild s t := by
        rw [compareChild, hmin, strncmp_cons hc, compareChild]
        simp only [length_cons, gt_iff_lt, Nat.add_lt_add_iff_right]
      rw [hcmp, (ih hs ht').1, (ih hs ht').2, Bytes.less]
      simp
    · have hne : (c.toNat : ℤ) - d.toNat ≠ 0 := fun h =>
        hcd (UInt8.toNat_inj.1 (by omega))
      have hcmp : compareChild (c :: s) (d :: t) = (c.toNat : ℤ) - d.toNat := by
        rw [compareChild, hmin, strncmp_cons_ne hcd]
        exact if_neg fun h => hne h.1
      rw [hcmp, Bytes.less]
      simp only [beq_eq_false_iff_ne.2 hcd, Bool.false_and, Bool.or_false, decide_eq_true_eq,
        UInt8.lt_iff_toNat_lt]
      exact ⟨⟨fun h => absurd h hne, fun h => absurd (List.cons.inj h).1 hcd⟩, by omega⟩

/-! ### Indexes of contexts -/

theorem indexOf_ctx (e : EntryBuilder) : indexOf contexts e.context = indexOf contexts e.ctx := by
  unfold EntryBuilder.ctx
  cases e.context with
  | none => rfl
  | some c =>
    by_cases hc : c = []
    · subst hc
      rfl
    · have hfilter : (some c).filter (fun x : Bytes => x != []) = some c :=
        filter_some_pos (bne_iff_ne.2 hc)
      rw [hfilter]

variable {c : Bytes}

/-- The index of a context: there are fewer than `NONE`. -/
theorem indexOf_some (hlen : contexts.length < NONE) (hc : c ≠ []) (hmem : c ∈ contexts) :
    ∃ k, indexOf contexts (some c) = k ∧ k < NONE ∧ contexts[k]? = some c := by
  rw [indexOf, if_neg hc]
  cases hk : contexts.findIdx? (· == c) with
  | none => exact absurd (findIdx?_eq_none_iff.1 hk c hmem) (by simp)
  | some k =>
    obtain ⟨hlt, hget, -⟩ := findIdx?_eq_some_iff_getElem.1 hk
    refine ⟨k, rfl, hlt.trans hlen, ?_⟩
    rw [getElem?_eq_getElem hlt, beq_iff_eq.1 hget]

variable {e : EntryBuilder} {o : ℕ}

theorem entryName_eq (h : EntryIn contexts m e o)
    (hname : ∀ c ∈ e.name, c ≠ 0) : entryName m o = e.name := by
  have hin := h.inside
  have hstr := h.name.inside
  rw [PROPERTY_ENTRY_SIZE] at hin
  rw [entryName, u32At_eq (by omega), cString, min_eq_left (by omega)]
  exact cString_eq h.name.bytes hname hstr

variable {α : Type} {key : α → Bytes}

/-- Where no two names are the same, a search by name finds the one. -/
theorem find_key {l : List α} (h : (l.map key).Nodup) {a : α} {x : Bytes} :
    l.find? (fun a => key a == x) = some a ↔ a ∈ l ∧ key a = x := by
  have hkey : ∀ {b}, l.find? (fun a => key a == x) = some b → key b = x := fun hf => by
    simpa using find?_some hf
  refine ⟨fun hf => ⟨mem_of_find?_eq_some hf, hkey hf⟩, ?_⟩
  rintro ⟨ha, hx⟩
  cases hf : l.find? (fun a => key a == x) with
  | none => exact absurd (beq_iff_eq.2 hx) (find?_eq_none.1 hf a ha)
  | some b =>
    have hb := mem_of_find?_eq_some hf
    rw [inj_on_of_nodup_map h hb ha ((hkey hf).trans hx.symm)]

theorem find_key_perm {l l' : List α} (hp : l'.Perm l) (h : (l.map key).Nodup)
    (x : Bytes) : l'.find? (fun a => key a == x) = l.find? (fun a => key a == x) := by
  have h' : (l'.map key).Nodup := (hp.map key).nodup_iff.2 h
  refine Option.ext fun a => ?_
  rw [find_key h, find_key h', hp.mem_iff]

section File

variable (hm : m.len < 2 ^ 32) (hlen : contexts.length < NONE)

include hm hlen

theorem take_run (h : EntryIn contexts m e o) (he : ∀ c, e.context = some c → c ∈ contexts) :
    (take m o (indexOf contexts f, ty)).1 = indexOf contexts (e.ctx.or f) := by
  have hin := h.inside
  rw [PROPERTY_ENTRY_SIZE] at hin
  have hindex : u32At m (add32 o 8) = indexOf contexts e.ctx % 2 ^ 32 := by
    rw [add32_eq (by omega), u32At_eq (by omega), h.context, indexOf_ctx]
  simp only [take]
  rw [hindex]
  cases hc : e.ctx with
  | none => rfl
  | some c =>
    obtain ⟨hsome, hne⟩ := filter_eq_some_iff.1 hc
    obtain ⟨k, hk, hlt, -⟩ := indexOf_some hlen (bne_iff_ne.1 hne) (he c hsome)
    have hmod : k % 2 ^ 32 = k := mod_eq_of_lt (by rw [NONE] at hlt; omega)
    rw [hk, hmod, if_pos (by omega), some_or, hk]

variable {array : ℕ} {i : ℕ}

omit hlen in
theorem array_at {P : Memory → α → ℕ → Prop} {xs : List α} (h : ArrayIn P m xs array)
    (hi : i < xs.length) : u32At m (add32 array (4 * i)) = m.word (array + 4 * i) := by
  have hin := h.inside
  rw [add32_eq (by omega), u32At_eq (by omega)]

omit hlen in
theorem length_at (h : EntryIn contexts m e o) : u32At m (add32 o 4) = e.name.length := by
  have hin := h.inside
  rw [PROPERTY_ENTRY_SIZE] at hin
  rw [add32_eq (by omega), u32At_eq (by omega), h.length]

variable {ps : List EntryBuilder}

/-- The scan stops at the first prefix of what remains. -/
theorem scanPrefixes_run (h : ArrayIn (EntryIn contexts) m ps array)
    (hps : ∀ p ∈ ps, Fine contexts p) (r : Bytes) {left : ℕ} (hleft : i + left = ps.length) :
    (scanPrefixes m array r (indexOf contexts f, ty) left i).1 =
      indexOf contexts ((((ps.drop i).find? fun p => p.name.isPrefixOf r).bind (·.ctx)).or f) := by
  induction left generalizing i with
  | zero =>
    rw [drop_of_length_le (by omega)]
    rfl
  | succ left ih =>
    have hi : i < ps.length := by omega
    have hentry := h.get i _ (getElem?_eq_getElem hi)
    have hfine := hps _ (getElem_mem hi)
    have hnul : ∀ c ∈ (ps[i]).name, c ≠ 0 := fun c hc => (hfine.segment c hc).2
    simp only [scanPrefixes, array_at hm h hi, length_at hm hentry, entryName_eq hentry hnul]
    rw [drop_eq_getElem_cons hi, find?_cons]
    have hnext := ih (by omega : i + 1 + left = ps.length)
    by_cases hlong : (ps[i]).name.length > r.length
    · have hnot : (ps[i]).name.isPrefixOf r = false := by
        rw [Bool.eq_false_iff]
        intro hp
        have := ( isPrefixOf_iff_prefix.1 hp).length_le
        omega
      rw [if_pos hlong, hnot]
      exact hnext
    · have hiff := strncmp_prefix hnul (Nat.le_of_not_lt hlong)
      rw [if_neg hlong]
      by_cases hp : (ps[i]).name <+: r
      · rw [if_pos (hiff.2 hp), isPrefixOf_iff_prefix.2 hp, take_run hm hlen hentry hfine.mem]
        rfl
      · have hnot : (ps[i]).name.isPrefixOf r = false :=
          Bool.eq_false_iff.2 fun h => hp ( isPrefixOf_iff_prefix.1 h)
        rw [if_neg fun h => hp (hiff.1 h), hnot]
        exact hnext

variable {es : List EntryBuilder}

/-- The scan finds the exact name. -/
theorem scanExact_run (h : ArrayIn (EntryIn contexts) m es array) (hes : ∀ p ∈ es, Fine contexts p)
    (r : Bytes) {left : ℕ} (hleft : i + left = es.length) :
    (scanExact m array r (indexOf contexts f, ty) left i).map (·.1) =
      ((es.drop i).find? fun p => p.name == r).map fun e => indexOf contexts (e.ctx.or f) := by
  induction left generalizing i with
  | zero =>
    rw [drop_of_length_le (by omega)]
    rfl
  | succ left ih =>
    have hi : i < es.length := by omega
    have hentry := h.get i _ (getElem?_eq_getElem hi)
    have hfine := hes _ (getElem_mem hi)
    have hnul : ∀ c ∈ (es[i]).name, c ≠ 0 := fun c hc => (hfine.segment c hc).2
    simp only [scanExact, array_at hm h hi, entryName_eq hentry hnul]
    rw [drop_eq_getElem_cons hi, find?_cons]
    by_cases hr : (es[i]).name = r
    · rw [if_pos hr, beq_iff_eq.2 hr, map_some, take_run hm hlen hentry hfine.mem]
      rfl
    · rw [if_neg hr, beq_eq_false_iff_ne.2 hr]
      exact ih (by omega)

variable {n : BuilderNode}

omit hm hlen in
theorem nodeName_eq (h : NodeIn contexts m n o) (hwf : Wf contexts n) :
    entryName m (nodeEntry m o) = n.entry.name := by
  cases h with
  | mk inside entry =>
    rw [TRIE_NODE_SIZE] at inside
    rw [nodeEntry, u32At_eq (by omega)]
    exact entryName_eq entry fun c hc => (hwf.entryName c hc).2

variable {cs : List BuilderNode} {fuel : ℕ}

omit hlen in
/-- The binary search: the child of that name, if there is one, is between `bottom` and `top`. -/
theorem searchChild_run
    (h : ArrayIn (fun m n o => NodeIn contexts m n o) m cs array)
    (hwf : ∀ c ∈ cs, Wf contexts c)
    (hlt : ∀ (i j : ℕ) c d, i < j → cs[i]? = some c → cs[j]? = some d →
      c.entry.name.less d.entry.name = true) (hs : ∀ c ∈ s, c ≠ 0) {bottom top : ℤ} (hbottom : 0 ≤ bottom)
    (htop : top < cs.length) (hfuel : top - bottom + 1 < fuel)
    (hinv : ∀ (i : ℕ) c, cs[i]? = some c → c.entry.name = s → bottom ≤ i ∧ (i : ℤ) ≤ top) :
    (∃ i c, cs[i]? = some c ∧ c.entry.name = s ∧
      searchChild m array s fuel bottom top = some (m.word (array + 4 * i))) ∨
    searchChild m array s fuel bottom top = none ∧ ∀ c ∈ cs, c.entry.name ≠ s := by
  induction fuel generalizing bottom top with
  | zero =>
    right
    refine ⟨rfl, fun c hc hcs => ?_⟩
    obtain ⟨i, hi⟩ := getElem?_of_mem hc
    have := hinv i c hi hcs
    omega
  | succ fuel ih =>
    rw [searchChild]
    by_cases hempty : top < bottom
    · right
      refine ⟨if_pos hempty, fun c hc hcs => ?_⟩
      obtain ⟨i, hi⟩ := getElem?_of_mem hc
      have := hinv i c hi hcs
      omega
    · rw [if_neg hempty]
      obtain ⟨k, hk⟩ : ∃ k : ℕ, (top + bottom) / 2 = k := ⟨((top + bottom) / 2).toNat, by omega⟩
      have hklt : k < cs.length := by omega
      have hkget := getElem?_eq_getElem hklt
      have hnode := h.get k _ hkget
      have hcwf := hwf _ (getElem_mem hklt)
      have hname := nodeName_eq hnode hcwf
      have hcmp := compareChild_spec (fun c hc => (hcwf.entryName c hc).2) hs
      simp only [hk, Int.toNat_natCast, array_at hm h hklt, hname]
      split_ifs with h0 hneg
      · exact .inl ⟨k, _, hkget, hcmp.1.1 h0, rfl⟩
      · refine ih (by omega) htop (by omega) fun i c hi hcs => ⟨?_, (hinv i c hi hcs).2⟩
        have hless := hcmp.2.1 hneg
        rcases lt_trichotomy i k with hik | rfl | hik
        · have := less_trans (hlt i k c _ hik hi hkget) hless
          rw [hcs, less_irrefl] at this
          cases this
        · cases hi.symm.trans hkget
          exact absurd (hcmp.1.2 hcs) h0
        · omega
      · refine ih hbottom (by omega) (by omega) fun i c hi hcs => ⟨(hinv i c hi hcs).1, ?_⟩
        rcases lt_trichotomy i k with hik | rfl | hik
        · omega
        · cases hi.symm.trans hkget
          exact absurd (hcmp.1.2 hcs) h0
        · have := hlt k i _ c hik hkget hi
          rw [hcs] at this
          exact absurd (hcmp.2.2 this) hneg

omit hlen in
theorem findChild_run (h : NodeIn contexts m (.mk e cs ps es) o)
    (hwf : Wf contexts (.mk e cs ps es)) (hs : ∀ c ∈ s, c ≠ 0) :
    match childNamed s cs with
    | none => findChild m o s = none
    | some c => c ∈ cs ∧ ∃ o', findChild m o s = some o' ∧ NodeIn contexts m c o' := by
  cases hwf with
  | mk _ _ childNames children =>
  cases h with
  | @mk _ _ cs' _ _ _ _ _ inside _ _ _ _ _ _ _ _ childPerm ordered childCount childInside childAt =>
    rw [TRIE_NODE_SIZE] at inside
    have harr : ArrayIn (fun m n o => NodeIn contexts m n o) m cs' (m.word (o + 8)) :=
      ⟨childInside, childAt⟩
    have hnd : (cs'.map (·.entry.name)).Nodup := (childPerm.map _).nodup_iff.2 childNames
    have hlt : ∀ (i j : ℕ) c d, i < j → cs'[i]? = some c → cs'[j]? = some d →
        c.entry.name.less d.entry.name = true := by
      intro i j c d hij hi hj
      obtain ⟨hi', rfl⟩ := List.getElem?_eq_some_iff.1 hi
      obtain ⟨hj', rfl⟩ := List.getElem?_eq_some_iff.1 hj
      have hle := pairwise_iff_getElem.1 ordered i j hi' hj' hij
      have hne := pairwise_iff_getElem.1 hnd i j (by simpa using hi') (by simpa using hj') hij
      rw [getElem_map, getElem_map] at hne
      exact not_not.1 fun hn => hne (eq_of_not_less (Bool.eq_false_iff.2 hn) hle)
    have hwf' : ∀ c ∈ cs', Wf contexts c := fun c hc => children c (childPerm.mem_iff.1 hc)
    have hfind : findChild m o s =
        searchChild m (m.word (o + 8)) s (cs'.length + 1) 0 (cs'.length - 1) := by
      simp only [findChild]
      rw [add32_eq (by omega), add32_eq (by omega), u32At_eq (by omega), u32At_eq (by omega),
        childCount]
    have hfuel : (cs'.length : ℤ) - 1 - 0 + 1 < ((cs'.length + 1 : ℕ) : ℤ) := by omega
    have hsearch := searchChild_run hm harr hwf' hlt hs (Int.le_refl 0)
      (Int.sub_one_lt_of_le (Int.le_refl _)) hfuel fun i c hi _ => by
        have := (List.getElem?_eq_some_iff.1 hi).1
        omega
    rw [← hfind] at hsearch
    rcases hsearch with ⟨i, c, hi, hcs, hres⟩ | ⟨hres, hnone⟩
    · have hc : childNamed s cs = some c :=
        (find_key childNames).2 ⟨childPerm.mem_iff.1 (List.mem_of_getElem? hi), hcs⟩
      rw [hc]
      exact ⟨childPerm.mem_iff.1 (mem_of_getElem? hi), _, hres, childAt i c hi⟩
    · have hc : childNamed s cs = none := by
        refine find?_eq_none.2 fun c hc hcs => ?_
        exact hnone c (childPerm.mem_iff.2 hc) (beq_iff_eq.1 hcs)
      rw [hc]
      exact hres

/-! ### Prefixes of a node -/

omit hm hlen in
/-- A prefix without a dot ends in the first segment. -/
theorem prefix_segment {p : Bytes} (hp : 46 ∉ p) (hr : r = s ∨ ∃ rest, r = s ++ 46 :: rest) :
    p <+: r ↔ p <+: s := by
  rcases hr with rfl | ⟨rest, rfl⟩
  · rfl
  refine ⟨fun h => ?_, fun h => h.trans (prefix_append _ _)⟩
  rcases prefix_or_prefix_of_prefix h (prefix_append s (46 :: rest)) with h' | ⟨t, rfl⟩
  · exact h'
  · rcases t with - | ⟨c, t⟩
    · rw [append_nil]
    · obtain ⟨rfl, -⟩ := cons_prefix_cons.1 ((prefix_append_right_inj s).1 h)
      exact absurd (mem_append_right s (.head _)) hp

omit hm hlen in
/-- The first prefix that matches in a list from the longest to the shortest, or else the node itself,
is the longest. -/
theorem longest_node {ps' : List EntryBuilder} (hperm : ps'.Perm ps)
    (hlong : ps'.Pairwise fun p q => q.name.length ≤ p.name.length) (hnd : (ps.map (·.name)).Nodup)
    (hps : ∀ p ∈ ps, Fine contexts p) (hs : 46 ∉ s) (hr : r = s ∨ ∃ rest, r = s ++ 46 :: rest) :
    ((ps'.find? fun p => p.name.isPrefixOf r).bind (·.ctx)).or e.ctx =
      longest (fun p => prefixAt (segments p) (.mk e cs ps es)) s := by
  have hdot : ∀ p ∈ ps, 46 ∉ p.name := fun p hp h => ((hps p hp).segment 46 h).1 rfl
  have hpre : ∀ p ∈ ps, p.name <+: r ↔ p.name <+: s := fun p hp => prefix_segment (hdot p hp) hr
  have hat : ∀ p, p <+: s → prefixAt (segments p) (.mk e cs ps es) =
      if p = [] then e.ctx else (named p ps).bind (·.ctx) := by
    intro p hp
    rw [segments, split_of_not_mem fun h => hs (hp.subset h)]
    rfl
  rw [longest_congr hat]
  cases hfind : ps'.find? fun p => p.name.isPrefixOf r with
  | some q =>
    obtain ⟨hq, as, bs, hsplit, hno⟩ := find?_eq_some_iff_append.1 hfind
    have hqmem : q ∈ ps := hperm.mem_iff.1 (mem_of_find?_eq_some hfind)
    have hqr : q.name <+: r := isPrefixOf_iff_prefix.1 hq
    obtain ⟨c, hc⟩ := (hps q hqmem).ctx
    rw [bind_some, hc, some_or, eq_comm, longest_eq_some]
    refine ⟨q.name, (hpre q hqmem).1 hqr, ?_, fun p hp hne => ?_⟩
    · have hnamed : named q.name ps = some q := (find_key hnd).2 ⟨hqmem, rfl⟩
      rw [if_neg (hps q hqmem).named, hnamed]
      exact hc
    by_cases hpe : p = []
    · rw [hpe]
      exact zero_le _
    rw [if_neg hpe] at hne
    cases hq' : named p ps with
    | none =>
      rw [hq'] at hne
      exact absurd rfl hne
    | some q' =>
      obtain ⟨hmem, rfl⟩ := (find_key hnd).1 hq'
      have hmem' := hperm.mem_iff.2 hmem
      rw [hsplit] at hmem' hlong
      rcases mem_append.1 hmem' with ha | ha
      · have := hno q' ha
        rw [ isPrefixOf_iff_prefix.2 ((hpre q' hmem).2 hp)] at this
        cases this
      · rcases mem_cons.1 ha with rfl | hb
        · exact le_refl _
        · exact rel_of_pairwise_cons (pairwise_append.1 hlong).2.1 hb
  | none =>
    have hnone : ∀ p, p <+: s → p ≠ [] → (named p ps).bind (·.ctx) = none := by
      intro p hp _
      cases hq : named p ps with
      | none => rfl
      | some q =>
        obtain ⟨hmem, rfl⟩ := (find_key hnd).1 hq
        have := find?_eq_none.1 hfind q (hperm.mem_iff.2 hmem)
        exact absurd ( isPrefixOf_iff_prefix.2 ((hpre q hmem).2 hp)) this
    rw [bind_none, none_or]
    cases hc : e.ctx with
    | none =>
      rw [eq_comm, longest_eq_none]
      intro p hp
      split_ifs with hpe
      · rfl
      · exact hnone p hp hpe
    | some c =>
      rw [eq_comm, longest_eq_some]
      refine ⟨[], nil_prefix, if_pos rfl, fun p hp hne => ?_⟩
      split_ifs at hne with hpe
      · rw [hpe]
      · exact absurd (hnone p hp hpe) hne

/-- What the scan of the prefixes of a node finds. -/
theorem checkPrefixMatch_run (h : NodeIn contexts m (.mk e cs ps es) o)
    (hwf : Wf contexts (.mk e cs ps es)) (hs : 46 ∉ s) (hr : r = s ∨ ∃ rest, r = s ++ 46 :: rest) :
    ∃ K : Option Bytes, K.or e.ctx = longest (fun p => prefixAt (segments p) (.mk e cs ps es)) s ∧
      ∀ f ty, (checkPrefixMatch m r o (indexOf contexts f, ty)).1 = indexOf contexts (K.or f) := by
  cases hwf with
  | mk _ _ _ _ prefixNames prefixes =>
  cases h with
  | @mk _ _ _ _ ps' _ _ _ inside _ prefixPerm longestFirst prefixCount prefixArray =>
    rw [TRIE_NODE_SIZE] at inside
    refine ⟨_, longest_node prefixPerm longestFirst prefixNames prefixes hs hr, fun f ty => ?_⟩
    rw [checkPrefixMatch, add32_eq (by omega), add32_eq (by omega), u32At_eq (by omega),
      u32At_eq (by omega), prefixCount, scanPrefixes_run hm hlen prefixArray
        (fun p hp => prefixes p (prefixPerm.mem_iff.1 hp)) r (Nat.zero_add _), drop_zero]

/-- What the scan of the exact names of a node finds. -/
theorem scanExact_node (h : NodeIn contexts m (.mk e cs ps es) o)
    (hwf : Wf contexts (.mk e cs ps es)) (r : Bytes)
    (f : Option Bytes) (ty : ℕ) :
    (scanExact m (u32At m (add32 o 24)) r (indexOf contexts f, ty) (u32At m (add32 o 20)) 0).map (·.1) =
      (named r es).map fun e => indexOf contexts (e.ctx.or f) := by
  cases hwf with
  | mk _ _ _ _ _ _ exactNames exacts =>
  cases h with
  | @mk _ _ _ _ _ _ es' _ inside _ _ _ _ _ exactPerm exactCount exactArray =>
    rw [TRIE_NODE_SIZE] at inside
    rw [add32_eq (by omega), add32_eq (by omega), u32At_eq (by omega), u32At_eq (by omega),
      exactCount, scanExact_run hm hlen exactArray
        (fun p hp => exacts p (exactPerm.mem_iff.1 hp)) r (Nat.zero_add _), drop_zero,
      find_key_perm exactPerm exactNames]
    rfl

/-- A search from a node. -/
theorem lookup_run (h : NodeIn contexts m n o)
    (hwf : Wf contexts n) (f : Option Bytes) (ty : ℕ) (hr : r.length < fuel) (hnul : ∀ c ∈ r, c ≠ 0) :
    (lookup m fuel o r (indexOf contexts f, ty)).1 =
      indexOf contexts ((exactAt (segments r) n).or
        ((longest (fun p => prefixAt (segments p) n) r).or f)) := by
  induction fuel generalizing n o r f ty with
  | zero => omega
  | succ fuel ih =>
    obtain ⟨e, cs, ps, es⟩ := n
    obtain ⟨s, hs, hrs⟩ : ∃ s, 46 ∉ s ∧ (r = s ∨ ∃ rest, r = s ++ 46 :: rest) := by
      rcases split_cases 46 r with h46 | ⟨s, rest, hs, rfl⟩
      · exact ⟨r, h46, .inl rfl⟩
      · exact ⟨s, hs, .inr ⟨rest, rfl⟩⟩
    obtain ⟨K, hK, hcheck⟩ := checkPrefixMatch_run hm hlen h hwf hs hrs
    have hown : ∃ ty', take m (nodeEntry m o) (indexOf contexts f, ty) =
        (indexOf contexts (e.ctx.or f), ty') := by
      cases hwf with
      | mk _ own =>
      cases h with
      | mk inside entry =>
        rw [TRIE_NODE_SIZE] at inside
        rw [nodeEntry, u32At_eq (by omega)]
        exact ⟨_, Prod.ext (take_run hm hlen entry own) rfl⟩
    obtain ⟨ty', hown⟩ := hown
    obtain ⟨ty'', hfound⟩ : ∃ ty'', checkPrefixMatch m r o (indexOf contexts (e.ctx.or f), ty') =
        (indexOf contexts ((K.or e.ctx).or f), ty'') :=
      ⟨_, Prod.ext ((hcheck _ _).trans (by rw [Option.or_assoc])) rfl⟩
    -- where the search ends at this node
    have hfinish : ∀ x, (∀ scan, scanExact m (u32At m (add32 o 24)) r
          (indexOf contexts ((K.or e.ctx).or f), ty'') (u32At m (add32 o 20)) 0 = scan →
        x = scan.getD (checkPrefixMatch m r o (indexOf contexts ((K.or e.ctx).or f), ty''))) →
        x.1 = indexOf contexts (((named r es).bind (·.ctx)).or ((K.or e.ctx).or f)) := by
      intro x hx
      rw [hx _ rfl]
      have hexact := scanExact_node hm hlen h hwf r ((K.or e.ctx).or f) ty''
      cases hscan : named r es with
      | none =>
        rw [hscan, map_none, map_eq_none_iff] at hexact
        rw [hexact]
        refine (hcheck _ _).trans ?_
        rw [← Option.or_assoc, ← Option.or_assoc, Option.or_self]
        rfl
      | some x =>
        rw [hscan, map_some] at hexact
        obtain ⟨indexes, hi, hx⟩ := map_eq_some_iff.1 hexact
        rw [hi]
        exact hx
    simp only [lookup, hown, hfound]
    rcases hrs with rfl | ⟨rest, rfl⟩
    · have hseg : segments r = [r] := split_of_not_mem hs
      rw [hseg]
      refine (hfinish _ fun o ho => by rw [ho]; cases o <;> rfl).trans ?_
      rw [hK]
      rfl
    · have hseg : segments (s ++ 46 :: rest) = s :: segments rest := split_append hs
      obtain ⟨t, ts, hrest⟩ : ∃ t ts, segments rest = t :: ts :=
        exists_cons_of_ne_nil (split_ne_nil 46 rest)
      have hchild := findChild_run hm h hwf (s := s) fun c hc => hnul c (mem_append_left _ hc)
      have hdeep : ∀ q, prefixAt (segments (s ++ 46 :: q)) (.mk e cs ps es) =
          (childNamed s cs).bind (prefixAt (segments q)) := by
        intro q
        obtain ⟨x, xs, hq⟩ : ∃ x xs, segments q = x :: xs :=
          exists_cons_of_ne_nil (split_ne_nil 46 q)
        rw [segments, split_append hs]
        change prefixAt (s :: segments q) _ = _
        rw [hq]
        rfl
      have hexact : exactAt (s :: segments rest) (.mk e cs ps es) =
          (childNamed s cs).bind (exactAt (segments rest)) := by
        rw [hrest]
        rfl
      rw [longest_append, ← hK, funext hdeep, hseg, hexact]
      cases hc : childNamed s cs with
      | none =>
        rw [hc] at hchild
        have hnone : longest (fun q => (none : Option BuilderNode).bind (prefixAt (segments q))) rest
            = none := longest_eq_none.2 fun _ _ => rfl
        have hnamed : named (s ++ 46 :: rest) es = none := by
          cases hwf with
          | mk _ _ _ _ _ _ _ exacts =>
            refine find?_eq_none.2 fun x hx hxs => ?_
            refine ((exacts x hx).segment 46 ?_).1 rfl
            rw [beq_iff_eq.1 hxs]
            exact mem_append_right s (.head _)
        rw [hnone]
        simp only [hrest, hchild]
        refine (hfinish _ fun o ho => by rw [ho]; cases o <;> rfl).trans ?_
        rw [hnamed]
        rfl
      | some c =>
        rw [hc] at hchild
        obtain ⟨hmem, o', hfind, hnode⟩ := hchild
        have hdrop : (s ++ 46 :: rest).drop (s.length + 1) = rest := by
          rw [← drop_drop, drop_left]
          rfl
        have hcwf : Wf contexts c := by
          cases hwf with
          | mk _ _ _ children => exact children c hmem
        simp only [hrest, hfind, hdrop]
        rw [ih hnode hcwf _ _ (by simp only [length_append, length_cons] at hr; omega)
          fun c hc => hnul c (mem_append_right s (.tail _ hc)), hrest]
        simp only [Option.bind_some, Option.or_assoc]

end File

/-! ### The context of a name -/

/-- The string of a context's index. -/
theorem context_run (hm : m.len < 2 ^ 32) (hheader : 24 ≤ m.len)
    (h : ArrayIn StringIn m contexts (m.word 12 + 4)) {k : ℕ} (hk : contexts[k]? = some c)
    (hnul : ∀ x ∈ c, x ≠ 0) (hutf : Utf8.valid c = true) : context m k = c := by
  have hlt := (List.getElem?_eq_some_iff.1 hk).1
  have hin := h.inside
  have hstr := h.get k c hk
  have hsin := hstr.inside
  have hbase : add32 (u32At m 12) 4 = m.word 12 + 4 := by
    rw [u32At_eq (by omega), add32_eq (by omega)]
  rw [context, hbase, array_at hm h hlt, cString, min_eq_left (by omega),
    cString_eq hstr.bytes hnul hsin, text, if_pos hutf]

/-- What the entries say of a name, or else the default; an empty default is no context. -/
inductive Selects (default : Bytes) (entries : List PropertyInfoEntry) (name : Bytes) :
    Option Bytes → Prop
  | exact {e : PropertyInfoEntry} : e ∈ entries → e.exactMatch = true → e.name = name →
      Selects default entries name (some e.context)
  | longest {e : PropertyInfoEntry} : (∀ x ∈ entries, x.exactMatch = true → x.name ≠ name) →
      e ∈ entries → e.exactMatch = false → e.name <+: name →
      (∀ x ∈ entries, x.exactMatch = false → x.name <+: name → x.name.length ≤ e.name.length) →
      Selects default entries name (some e.context)
  | default : (∀ x ∈ entries, x.exactMatch = true → x.name ≠ name) →
      (∀ x ∈ entries, x.exactMatch = false → ¬ x.name <+: name) →
      Selects default entries name (if default = [] then none else some default)

section Built

variable {default : Bytes} {entries : List PropertyInfoEntry} {b : TrieBuilder}

/-- What a search of the trie finds. -/
def found (b : TrieBuilder) (name : Bytes) : Option Bytes :=
  (exactAt (segments name) b.root).or (longest (fun p => prefixAt (segments p) b.root) name)

variable (h : b.Built default entries)

include h

variable {name : Bytes}

theorem exactAt_none (hno : ∀ x ∈ entries, x.exactMatch = true → x.name ≠ name) :
    exactAt (segments name) b.root = none := by
  rw [eq_none_iff_forall_ne_some]
  intro c hc
  obtain ⟨e, he, hexact, hseg, -⟩ := (h.exacts _ _).1 hc
  exact hno e he hexact (split_inj hseg)

/-- A prefix with a context is that of an entry, or the empty one. -/
theorem prefixAt_cases {p : Bytes} (hc : prefixAt (segments p) b.root = some c) :
    (p = [] ∧ default ≠ [] ∧ c = default) ∨
      ∃ e ∈ entries, e.exactMatch = false ∧ e.name = p ∧ e.context = c := by
  rcases (h.prefixes _ _).1 hc with ⟨hseg, hne, hd⟩ | ⟨e, he, hexact, hseg, hctx⟩
  · exact .inl ⟨split_inj (hseg.trans (rfl : [[]] = segments [])), hne, hd⟩
  · exact .inr ⟨e, he, hexact, split_inj hseg, hctx⟩

theorem prefixAt_entry {e : PropertyInfoEntry} (he : e ∈ entries)
    (hexact : e.exactMatch = false) : prefixAt (segments e.name) b.root = some e.context :=
  (h.prefixes _ _).2 (.inr ⟨e, he, hexact, rfl, rfl⟩)

theorem found_of_selects {c : Option Bytes}
    (hc : Selects default entries name c) : found b name = c := by
  cases hc with
  | exact he hexact hname =>
    rw [found, (h.exacts _ _).2 ⟨_, he, hexact, congrArg segments hname, rfl⟩]
    rfl
  | @longest e hno he hexact hp hmax =>
    rw [found, exactAt_none h hno, none_or, longest_eq_some]
    refine ⟨e.name, hp, prefixAt_entry h he hexact, fun q hq hne => ?_⟩
    obtain ⟨c, hc⟩ := ne_none_iff_exists'.1 hne
    rcases prefixAt_cases h hc with ⟨rfl, -⟩ | ⟨x, hx, hxe, rfl, -⟩
    · exact zero_le _
    · exact hmax x hx hxe hq
  | default hno hnone =>
    have honly : ∀ q c, q <+: name → prefixAt (segments q) b.root = some c →
        q = [] ∧ default ≠ [] ∧ c = default := by
      intro q c hq hc
      rcases prefixAt_cases h hc with hd | ⟨x, hx, hxe, rfl, -⟩
      · exact hd
      · exact absurd hq (hnone x hx hxe)
    rw [found, exactAt_none h hno, none_or]
    split_ifs with hd
    · rw [longest_eq_none]
      intro q hq
      rw [eq_none_iff_forall_ne_some]
      exact fun c hc => (honly q c hq hc).2.1 hd
    · rw [longest_eq_some]
      refine ⟨[], nil_prefix, (h.prefixes _ _).2 (.inl ⟨rfl, hd, rfl⟩), fun q hq hne => ?_⟩
      obtain ⟨c, hc⟩ := ne_none_iff_exists'.1 hne
      rw [(honly q c hq hc).1]

theorem context_of_found
    (hc : found b name = some c) : (default ≠ [] ∧ c = default) ∨ ∃ e ∈ entries, e.context = c := by
  rcases or_eq_some_iff.1 hc with hc | ⟨-, hc⟩
  · obtain ⟨e, he, -, -, hctx⟩ := (h.exacts _ _).1 hc
    exact .inr ⟨e, he, hctx⟩
  · obtain ⟨p, -, hp, -⟩ := exists_of_longest hc
    rcases prefixAt_cases h hp with ⟨-, hd⟩ | ⟨e, he, -, -, hctx⟩
    · exact .inl hd
    · exact .inr ⟨e, he, hctx⟩

omit h

/-- The entries always say something of a name. -/
theorem exists_selects (entries : List PropertyInfoEntry) (default name : Bytes) :
    ∃ c, Selects default entries name c := by
  by_cases hx : ∃ e ∈ entries, e.exactMatch = true ∧ e.name = name
  · obtain ⟨e, he, hexact, hname⟩ := hx
    exact ⟨_, .exact he hexact hname⟩
  have hno : ∀ x ∈ entries, x.exactMatch = true → x.name ≠ name :=
    fun x hx' hexact hname => hx ⟨x, hx', hexact, hname⟩
  have hentry : ∀ e ∈ entries, e.exactMatch = false →
      entries.find? (fun x => x.exactMatch == false && x.name == e.name) ≠ none := by
    intro e he hexact hnone
    exact absurd (by simp [hexact]) (find?_eq_none.1 hnone e he)
  cases hl : longest (fun p => entries.find? fun x => x.exactMatch == false && x.name == p) name with
  | some e =>
    obtain ⟨p, hp, hfind, hmax⟩ := exists_of_longest hl
    obtain ⟨hexact, rfl⟩ : e.exactMatch = false ∧ e.name = p := by
      simpa using find?_some hfind
    exact ⟨_, .longest hno (mem_of_find?_eq_some hfind) hexact hp
      fun x hx' hxe hpre => hmax x.name hpre (hentry x hx' hxe)⟩
  | none =>
    exact ⟨_, .default hno fun x hx' hexact hpre =>
      hentry x hx' hexact (longest_eq_none.1 hl x.name hpre)⟩

end Built

/-- The strings of an entry. -/
structure PropertyInfoEntry.Clean (e : PropertyInfoEntry) : Prop extends e.Plain where
  nulFree : ∀ c ∈ e.context, c ≠ 0
  utf8 : Utf8.valid e.context = true

/-- **The context of the longest prefix.**  The file that is built of any entries that can be added,
if its size is a 32-bit number, is accepted, and a search of it finds what the entries say. -/
theorem context_of_longest_prefix (sorter : Sorter) {entries : List PropertyInfoEntry}
    {default type : Bytes} {b : TrieBuilder} (hadd : addAll (.new default type) entries = .ok b)
    (hentries : ∀ e ∈ entries, e.Clean) (hdefault : ∀ c ∈ default, c ≠ 0)
    (hutf : Utf8.valid default = true) :
    ∃ m, buildTrie sorter entries default type (.zero 0) = .ok () m ∧
      (m.len < 2 ^ 32 → accepts m = true ∧ ∀ name, (∀ c ∈ name, c ≠ 0) →
        ∀ c, (propertyInfo m name).1 = c ↔ Selects default entries name c) := by
  obtain ⟨m, hrun, hfile⟩ := serialize_run sorter b
  refine ⟨m, ?_, fun hm => ?_⟩
  · rw [buildTrie, hadd]
    exact hrun
  have hbuilt : b.Built default entries := by
    have := TrieBuilder.built_addAll (TrieBuilder.built_new default type)
      (fun e he => (hentries e he).toPlain) hadd
    rwa [nil_append] at this
  obtain ⟨haccepted, htable, hroot⟩ := hfile hm
  refine ⟨haccepted, fun name hname => ?_⟩
  have hheader : 24 ≤ m.len := by
    simp only [accepts, Bool.and_eq_true, decide_eq_true_eq] at haccepted
    exact haccepted.1.1
  have hlen : b.contexts.length < NONE := by
    have := htable.inside
    rw [NONE]
    omega
  have hindex : (propertyInfoIndexes m name).1 = indexOf b.contexts (found b name) := by
    have hlookup := lookup_run hm hlen hroot hbuilt.wf none NONE (lt_succ_self name.length) hname
    rw [or_none] at hlookup
    rw [propertyInfoIndexes, root, u32At_eq (by omega)]
    exact hlookup
  have hfound : (propertyInfo m name).1 = found b name := by
    change (if (propertyInfoIndexes m name).1 ≠ NONE then
      some (context m (propertyInfoIndexes m name).1) else none) = _
    rw [hindex]
    cases hc : found b name with
    | none => rfl
    | some c =>
      obtain ⟨hmem, hne, hnul, hvalid⟩ : c ∈ b.contexts ∧ c ≠ [] ∧ (∀ x ∈ c, x ≠ 0) ∧
          Utf8.valid c = true := by
        rcases context_of_found hbuilt hc with ⟨hne, rfl⟩ | ⟨e, he, rfl⟩
        · exact ⟨(hbuilt.contexts c).2 (.inl rfl), hne, hdefault, hutf⟩
        · have hclean := hentries e he
          exact ⟨(hbuilt.contexts _).2 (.inr ⟨e, he, rfl⟩), hclean.context, hclean.nulFree,
            hclean.utf8⟩
      obtain ⟨k, hk, hlt, hget⟩ := indexOf_some hlen hne hmem
      rw [hk, if_pos (Nat.ne_of_lt hlt), context_run hm hheader htable hget hnul hvalid]
  intro c
  rw [hfound]
  constructor
  · rintro rfl
    obtain ⟨c, hc⟩ := exists_selects entries default name
    rwa [found_of_selects hbuilt hc]
  · exact found_of_selects hbuilt

/-! ### A sort, and two files -/

theorem StrictWeak.not_less_trans {less : α → α → Bool} (h : StrictWeak less) {a b c : α}
    (hab : less b a = false) (hbc : less c b = false) : less c a = false := by
  by_contra hca
  rw [Bool.not_eq_false] at hca
  cases hb : less a b with
  | true => exact Bool.noConfusion (hbc.symm.trans (h.trans c a b hca hb))
  | false =>
    cases hc : less b c with
    | true => exact Bool.noConfusion (hab.symm.trans (h.trans b c a hc hca))
    | false => exact Bool.noConfusion ((h.equal a b c hb hab hc hbc).2.symm.trans hca)

/-- Insertion sort. -/
def insertionSorter : Sorter where
  sort less l := l.insertionSort fun a b => less b a = false
  perm less l _ := List.perm_insertionSort _ l
  sorted {α} less l h := by
    have : Std.Total fun a b : α => less b a = false := ⟨fun a b => by
      by_contra hn
      rw [not_or, Bool.not_eq_false, Bool.not_eq_false] at hn
      exact Bool.noConfusion ((h.irrefl a).symm.trans (h.trans a b a hn.2 hn.1))⟩
    have : IsTrans α fun a b : α => less b a = false := ⟨fun _ _ _ => h.not_less_trans⟩
    exact List.pairwise_insertionSort _ l

def entryOf (name context : String) (exactMatch : Bool) : PropertyInfoEntry :=
  ⟨.ofAscii name, .ofAscii context, .ofAscii "string", exactMatch⟩

/-- An exact entry, and prefixes with and without a dot at the end. -/
def someEntries : List PropertyInfoEntry :=
  [entryOf "a.b" "x" true, entryOf "a." "y" false, entryOf "a.b" "z" false]

theorem context_of_longest_prefix_of_three :
    ∃ m, buildTrie insertionSorter someEntries (.ofAscii "d") (.ofAscii "string") (.zero 0) = .ok () m ∧
      (m.len < 2 ^ 32 → accepts m = true ∧ ∀ name, (∀ c ∈ name, c ≠ 0) →
        ∀ c, (propertyInfo m name).1 = c ↔ Selects (.ofAscii "d") someEntries name c) := by
  obtain ⟨b, hb⟩ : ∃ b, addAll (.new (.ofAscii "d") (.ofAscii "string")) someEntries = .ok b := ⟨_, rfl⟩
  refine context_of_longest_prefix insertionSorter hb (fun e he => ?_) (by decide +kernel) (by decide)
  simp only [someEntries, mem_cons, not_mem_nil, or_false] at he
  rcases he with rfl | rfl | rfl <;>
    exact ⟨⟨by decide +kernel, by decide, by decide⟩, by decide +kernel, by decide⟩

/-- What a search finds in the file of the entries. -/
def contextIn (entries : List PropertyInfoEntry) (default name : Bytes) : Option (Option Bytes) :=
  match buildTrie insertionSorter entries default (.ofAscii "string") (.zero 0) with
  | .ok _ m => if accepts m then some (propertyInfo m name).1 else none
  | _ => none

/-- A property whose first segment goes on after a zero byte gets the context of the child that ends
there. -/
theorem zero_byte_finds_child :
    ∃ m, buildTrie insertionSorter [entryOf "a." "x" false] (.ofAscii "d") (.ofAscii "string")
        (.zero 0) = .ok () m ∧ accepts m = true ∧
      (propertyInfo m (.ofAscii "a\x00.c")).1 = some (.ofAscii "x") ∧
      ¬ Selects (.ofAscii "d") [entryOf "a." "x" false] (.ofAscii "a\x00.c") (some (.ofAscii "x")) := by
  have h : contextIn [entryOf "a." "x" false] (.ofAscii "d") (.ofAscii "a\x00.c") =
      some (some (.ofAscii "x")) := by decide +kernel
  unfold contextIn at h
  split at h
  next u m hrun =>
    split_ifs at h with hacc
    refine ⟨m, hrun, hacc, Option.some.inj h, fun hsel => ?_⟩
    generalize hc : some (Bytes.ofAscii "x") = c at hsel
    cases hsel with
    | exact he hexact =>
      rw [mem_singleton.1 he] at hexact
      cases hexact
    | longest _ he _ hpre =>
      rw [mem_singleton.1 he] at hpre
      exact absurd hpre (by decide)
    | default => exact absurd hc (by decide)
  · cases h

end Aim.Props.Contexts
