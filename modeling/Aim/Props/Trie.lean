import Aim.Props.Contexts
import Aim.Support.Prefix

/-!
# Props — The trie of contexts

The builder's trie as two partial functions on names, given by their segments: the contexts of exact
entries (`exactAt`), and those of prefixes (`prefixAt`), where a name that ends in a dot is the node
of what comes before the dot and the empty name is the default.

* `TrieBuilder.add` sets one of them at the name of the entry, where it had nothing.
* `Built`: what the trie is after entries were added.
-/

namespace Aim.Props.Contexts

theorem exists_of_bind {ε α β : Type} {x : Except ε α} {f : α → Except ε β} {b : β}
    (h : (x >>= f) = .ok b) : ∃ a, x = .ok a ∧ f a = .ok b := by
  cases x with
  | error e => cases h
  | ok a => exact ⟨a, rfl, h⟩

/-- The context of an entry; the serializer takes an empty one for none. -/
def EntryBuilder.ctx (e : EntryBuilder) : Option Bytes := e.context.filter (· != [])

def named (name : Bytes) (es : List EntryBuilder) : Option EntryBuilder := es.find? (·.name == name)

namespace BuilderNode

def childNamed (name : Bytes) (cs : List BuilderNode) : Option BuilderNode :=
  cs.find? (·.entry.name == name)

def prefixAt : List Bytes → BuilderNode → Option Bytes
  | [], _ => none
  | [s], n => if s = [] then n.entry.ctx else (named s n.prefixes).bind (·.ctx)
  | s :: s' :: k, n => (childNamed s n.children).bind (prefixAt (s' :: k))

def exactAt : List Bytes → BuilderNode → Option Bytes
  | [], _ => none
  | [s], n => (named s n.exactMatches).bind (·.ctx)
  | s :: s' :: k, n => (childNamed s n.children).bind (exactAt (s' :: k))

/-! ### Changes at a path -/

variable {name : Bytes} {f : BuilderNode → Except Bytes BuilderNode} {cs cs' : List BuilderNode}
  {n n' : BuilderNode}

theorem childNamed_cons {c : BuilderNode} {x : Bytes} :
    childNamed x (c :: cs) = if c.entry.name = x then some c else childNamed x cs := by
  rw [childNamed, List.find?_cons]
  by_cases hx : c.entry.name = x
  · rw [if_pos hx, beq_iff_eq.2 hx]
  · rw [if_neg hx, beq_eq_false_iff_ne.2 hx]
    rfl

/-- The child of the name is changed, or a new one is, and no other. -/
theorem childNamed_modifyChild (hf : ∀ c c', f c = .ok c' → c'.entry.name = c.entry.name)
    (h : modifyChild name f cs = .ok cs') :
    ∃ c', f ((childNamed name cs).getD (new name)) = .ok c' ∧
      ∀ x, childNamed x cs' = if x = name then some c' else childNamed x cs := by
  induction cs generalizing cs' with
  | nil =>
    obtain ⟨c', hc, hcs⟩ := exists_of_bind h
    cases hcs
    have hname : c'.entry.name = name := hf _ _ hc
    refine ⟨c', hc, fun x => ?_⟩
    rw [childNamed, List.find?_singleton, hname]
    by_cases hx : x = name
    · rw [if_pos hx, hx, if_pos (beq_self_eq_true name)]
    · rw [if_neg hx, if_neg (by simpa using Ne.symm hx)]
      rfl
  | cons c cs ih =>
    rw [modifyChild] at h
    split_ifs at h with hc
    · obtain ⟨c', hf', hcs⟩ := exists_of_bind h
      cases hcs
      refine ⟨c', ?_, fun x => ?_⟩
      · rwa [childNamed_cons, if_pos hc]
      · rw [childNamed_cons, childNamed_cons, hf c c' hf', hc]
        by_cases hx : x = name
        · rw [if_pos hx.symm, if_pos hx]
        · rw [if_neg (Ne.symm hx), if_neg hx, if_neg (Ne.symm hx)]
    · obtain ⟨cs₁, hcs, hcs'⟩ := exists_of_bind h
      cases hcs'
      obtain ⟨c', hf', hfind⟩ := ih hcs
      refine ⟨c', ?_, fun x => ?_⟩
      · rwa [childNamed_cons, if_neg hc]
      · rw [childNamed_cons, childNamed_cons, hfind]
        by_cases hx : x = name
        · rw [if_pos hx, if_pos hx, if_neg (hx ▸ hc)]
        · rw [if_neg hx, if_neg hx]

/-- A function on names that goes down the children. -/
structure Descends (look : List Bytes → BuilderNode → Option Bytes) : Prop where
  nil : ∀ n, look [] n = none
  new : ∀ k name, look k (new name) = none
  flat : ∀ s e cs cs' ps es, look [s] (mk e cs ps es) = look [s] (mk e cs' ps es)
  deep : ∀ s s' k e cs ps es,
    look (s :: s' :: k) (mk e cs ps es) = (childNamed s cs).bind (look (s' :: k))

/-- The search of prefixes goes down a path child by child. -/
theorem descends_prefixAt : Descends prefixAt where
  nil _ := rfl
  new k name := by
    rcases k with - | ⟨s, - | ⟨s', k⟩⟩
    · rfl
    · rw [prefixAt]
      split_ifs <;> rfl
    · rfl
  flat _ _ _ _ _ _ := rfl
  deep _ _ _ _ _ _ _ := rfl

theorem descends_exactAt : Descends exactAt where
  nil _ := rfl
  new k name := by rcases k with - | ⟨s, - | ⟨s', k⟩⟩ <;> rfl
  flat _ _ _ _ _ _ := rfl
  deep _ _ _ _ _ _ _ := rfl

/-- `f` changes what is found at one key, by `change`, if that was `before`. -/
structure Sets (look : List Bytes → BuilderNode → Option Bytes) (key : List Bytes)
    (before : Option Bytes → Prop) (change : Option Bytes → Option Bytes)
    (f : BuilderNode → Except Bytes BuilderNode) : Prop where
  name : ∀ n n', f n = .ok n' → n'.entry.name = n.entry.name
  before : ∀ n n', f n = .ok n' → before (look key n)
  found : ∀ n n', f n = .ok n' → ∀ k, look k n' = if k = key then change (look k n) else look k n

variable {look : List Bytes → BuilderNode → Option Bytes}

/-- A change below a path is a change at the path followed by its key. -/
theorem sets_modifyAt {key : List Bytes}
    {before : Option Bytes → Prop} {change : Option Bytes → Option Bytes} (hkey : key ≠ [])
    (hd : Descends look) (hf : Sets look key before change f) (path : List Bytes) :
    Sets look (path ++ key) before change (modifyAt f path) := by
  induction path with
  | nil => exact hf
  | cons piece path ih =>
    have step : ∀ {n n'}, modifyAt f (piece :: path) n = .ok n' → ∃ e cs cs' ps es c',
        n = mk e cs ps es ∧ n' = mk e cs' ps es ∧
        modifyAt f path ((childNamed piece cs).getD (new piece)) = .ok c' ∧
        ∀ x, childNamed x cs' = if x = piece then some c' else childNamed x cs := by
      rintro ⟨e, cs, ps, es⟩ n' h
      obtain ⟨cs', hcs, h'⟩ := exists_of_bind h
      cases h'
      obtain ⟨c', hc, hfind⟩ := childNamed_modifyChild ih.name hcs
      exact ⟨e, cs, cs', ps, es, c', rfl, rfl, hc, hfind⟩
    have hold : ∀ (k : List Bytes) (cs : List BuilderNode), k ≠ [] →
        look k ((childNamed piece cs).getD (new piece)) = (childNamed piece cs).bind (look k) := by
      intro k cs _
      cases childNamed piece cs with
      | none => exact hd.new k piece
      | some c => rfl
    obtain ⟨s', k', hk'⟩ := List.exists_cons_of_ne_nil
      (List.append_ne_nil_of_right_ne_nil path hkey)
    constructor
    · intro n n' h
      obtain ⟨e, cs, cs', ps, es, c', rfl, rfl, -⟩ := step h
      rfl
    · intro n n' h
      obtain ⟨e, cs, cs', ps, es, c', rfl, rfl, hc, -⟩ := step h
      have hb := ih.before _ _ hc
      rwa [hold _ _ (by rw [hk']; nofun), hk', ← hd.deep, ← hk'] at hb
    · intro n n' h k
      obtain ⟨e, cs, cs', ps, es, c', rfl, rfl, hc, hfind⟩ := step h
      rcases k with - | ⟨s, - | ⟨t, k⟩⟩
      · rw [hd.nil, hd.nil, if_neg (by nofun)]
      · rw [if_neg, hd.flat]
        rw [List.cons_append, hk']
        nofun
      rw [hd.deep, hd.deep, hfind]
      by_cases hs : s = piece
      · subst hs
        rw [if_pos rfl, Option.bind_some, ih.found _ _ hc, hold _ _ (by nofun)]
        simp only [List.cons_append, List.cons.injEq, true_and]
      · rw [if_neg hs, if_neg]
        rintro heq
        exact hs (List.cons.inj heq).1

/-! ### The last piece of an entry -/

variable {entry : PropertyInfoEntry} {last : Bytes}

/-- Nothing is changed. -/
theorem Sets.id (key : List Bytes) (hname : ∀ n n', f n = .ok n' → n'.entry.name = n.entry.name)
    (h : ∀ n n', f n = .ok n' → ∀ k, look k n' = look k n) :
    Sets look key (fun _ => True) (fun o => o) f := by
  refine ⟨hname, fun _ _ _ => trivial, fun n n' hn k => ?_⟩
  rw [ite_self, h n n' hn]

variable {es : List EntryBuilder}

theorem named_eq_none {s : Bytes} (h : es.any (·.name == s) = false) : named s es = none := by
  rw [named, List.find?_eq_none]
  intro e he
  have := List.any_eq_false.1 h e he
  exact this

/-- The entry that is added at the last piece. -/
def added (entry : PropertyInfoEntry) (last : Bytes) : EntryBuilder :=
  ⟨last, some entry.context, some entry.type⟩

theorem ctx_added (hc : entry.context ≠ []) : (added entry last).ctx = some entry.context :=
  Option.filter_some_pos (bne_iff_ne.2 hc)

/-- An entry that is added is found under its name, and the others as before. -/
theorem named_added (h : es.any (·.name == last) = false) (hc : entry.context ≠ []) (s : Bytes) :
    (named s (es ++ [added entry last])).bind (·.ctx) =
      if s = last then some entry.context else (named s es).bind (·.ctx) := by
  rw [named, List.find?_append, List.find?_singleton]
  change ((named s es).or (if (last == s) = true then _ else _)).bind _ = _
  by_cases hs : s = last
  · rw [if_pos hs, hs, named_eq_none h, Option.none_or, if_pos (beq_self_eq_true last)]
    exact ctx_added hc
  · rw [if_neg hs, if_neg (by simpa using Ne.symm hs), Option.or_none]

/-- A node becomes a prefix. -/
def setContext (entry : PropertyInfoEntry) (duplicate : Bytes) : BuilderNode → Except Bytes BuilderNode
  | mk e cs ps es =>
    if e.context.isSome || e.type.isSome then .error duplicate
    else .ok (mk (added entry e.name) cs ps es)

/-- A node's own context is set once. -/
theorem setContext_ok {duplicate : Bytes} (h : setContext entry duplicate n = .ok n') :
    ∃ e cs ps es, n = mk e cs ps es ∧ e.context = none ∧ n' = mk (added entry e.name) cs ps es := by
  obtain ⟨e, cs, ps, es⟩ := n
  rw [setContext] at h
  split_ifs at h with hsome
  cases h
  rw [Bool.or_eq_true, not_or] at hsome
  exact ⟨e, cs, ps, es, rfl, Option.not_isSome_iff_eq_none.1 hsome.1, rfl⟩

/-- An exact entry goes to the exact matches of its node, if it is not among them. -/
theorem addLast_of_exact {d : Bool} (hexact : entry.exactMatch = true)
    (h : addLast entry last d n = .ok n') : ∃ e cs ps es, n = mk e cs ps es ∧
      es.any (·.name == last) = false ∧ n' = mk e cs ps (es ++ [added entry last]) := by
  obtain ⟨e, cs, ps, es⟩ := n
  simp only [addLast, hexact, if_true] at h
  split_ifs at h with hany
  cases h
  exact ⟨e, cs, ps, es, rfl, Bool.eq_false_iff.2 hany, rfl⟩

/-- A prefix that ends within a piece goes to the prefixes of its node. -/
theorem addLast_of_short (hexact : entry.exactMatch = false)
    (h : addLast entry last false n = .ok n') : ∃ e cs ps es, n = mk e cs ps es ∧
      ps.any (·.name == last) = false ∧ n' = mk e cs (ps ++ [added entry last]) es := by
  obtain ⟨e, cs, ps, es⟩ := n
  simp only [addLast, hexact, Bool.not_false, Bool.false_eq_true, if_true, if_false] at h
  split_ifs at h with hany
  cases h
  exact ⟨e, cs, ps, es, rfl, Bool.eq_false_iff.2 hany, rfl⟩

/-- A prefix that ends with a dot is the context of the child it names. -/
theorem addLast_dotted (last : Bytes) (hexact : entry.exactMatch = false) : ∃ duplicate,
    addLast entry last true = modifyAt (setContext entry duplicate) [last] := by
  refine ⟨.ofAscii "Duplicate " ++ .ofAscii "prefix" ++ .ofAscii " match detected for '" ++
    entry.name ++ .ofAscii "'", ?_⟩
  funext n
  obtain ⟨e, cs, ps, es⟩ := n
  simp only [addLast, hexact, Bool.not_true, Bool.false_eq_true, if_false]
  rfl

/-- An exact entry is found at its last piece. -/
theorem sets_exact (last : Bytes) (d : Bool) (hexact : entry.exactMatch = true)
    (hc : entry.context ≠ []) :
    Sets exactAt [last] (· = none) (fun _ => some entry.context) (addLast entry last d) := by
  refine ⟨fun n n' h => ?_, fun n n' h => ?_, fun n n' h k => ?_⟩ <;>
    obtain ⟨e, cs, ps, es, rfl, hany, rfl⟩ := addLast_of_exact hexact h
  · rfl
  · rw [exactAt, exactMatches, named_eq_none hany]
    rfl
  · rcases k with - | ⟨s, - | ⟨t, k⟩⟩
    · rfl
    · simp only [exactAt, exactMatches, named_added hany hc, List.cons.injEq, and_true]
    · rw [if_neg (by nofun)]
      rfl

theorem sets_prefixAt (hexact : entry.exactMatch = false) (hc : entry.context ≠ []) (hl : last ≠ []) :
    Sets prefixAt [last] (· = none) (fun _ => some entry.context) (addLast entry last false) := by
  refine ⟨fun n n' h => ?_, fun n n' h => ?_, fun n n' h k => ?_⟩ <;>
    obtain ⟨e, cs, ps, es, rfl, hany, rfl⟩ := addLast_of_short hexact h
  · rfl
  · rw [prefixAt, if_neg hl, prefixes, named_eq_none hany]
    rfl
  rcases k with - | ⟨s, - | ⟨t, k⟩⟩
  · rfl
  · simp only [prefixAt, prefixes, named_added hany hc, List.cons.injEq, and_true]
    by_cases hs : s = last
    · rw [if_pos hs, if_pos hs, hs, if_neg hl]
    · rw [if_neg hs, if_neg hs]
      rfl
  · rw [if_neg (by nofun)]
    rfl

theorem sets_dotted (last : Bytes) (hexact : entry.exactMatch = false) (hc : entry.context ≠ []) :
    Sets prefixAt [last, []] (· = none) (fun _ => some entry.context) (addLast entry last true) := by
  obtain ⟨duplicate, heq⟩ := addLast_dotted last hexact
  rw [heq]
  refine sets_modifyAt (List.cons_ne_nil [] []) descends_prefixAt ?_ [last]
  refine ⟨fun n n' h => ?_, fun n n' h => ?_, fun n n' h k => ?_⟩ <;>
    obtain ⟨e, cs, ps, es, rfl, hnone, rfl⟩ := setContext_ok h
  · rfl
  · rw [prefixAt, if_pos rfl, BuilderNode.entry, EntryBuilder.ctx, hnone]
    rfl
  rcases k with - | ⟨s, - | ⟨t, k⟩⟩
  · rfl
  · simp only [prefixAt, prefixes, BuilderNode.entry, List.cons.injEq, and_true]
    by_cases hs : s = []
    · rw [if_pos hs, if_pos hs]
      exact ctx_added hc
    · rw [if_neg hs, if_neg hs, if_neg hs]
  · rw [if_neg (by nofun)]
    rfl

theorem keeps_prefixAt (last : Bytes) (d : Bool) (hexact : entry.exactMatch = true) :
    Sets prefixAt [[]] (fun _ => True) (fun o => o) (addLast entry last d) := by
  refine .id _ (fun n n' h => ?_) (fun n n' h k => ?_) <;>
    obtain ⟨e, cs, ps, es, rfl, -, rfl⟩ := addLast_of_exact hexact h
  · rfl
  · rcases k with - | ⟨s, - | ⟨t, k⟩⟩ <;> rfl

/-- What is added as a prefix changes no exact match. -/
theorem keeps_exactAt (last : Bytes) (hexact : entry.exactMatch = false) :
    Sets exactAt [[]] (fun _ => True) (fun o => o) (addLast entry last false) := by
  refine .id _ (fun n n' h => ?_) (fun n n' h k => ?_) <;>
    obtain ⟨e, cs, ps, es, rfl, -, rfl⟩ := addLast_of_short hexact h
  · rfl
  · rcases k with - | ⟨s, - | ⟨t, k⟩⟩ <;> rfl

theorem keeps_exactAt_dotted (last : Bytes) (hexact : entry.exactMatch = false) :
    Sets exactAt [last, []] (fun _ => True) (fun o => o) (addLast entry last true) := by
  obtain ⟨duplicate, heq⟩ := addLast_dotted last hexact
  rw [heq]
  refine sets_modifyAt (List.cons_ne_nil [] []) descends_exactAt ?_ [last]
  refine .id _ (fun n n' h => ?_) (fun n n' h k => ?_) <;>
    obtain ⟨e, cs, ps, es, rfl, -, rfl⟩ := setContext_ok h
  · rfl
  · rcases k with - | ⟨s, - | ⟨t, k⟩⟩ <;> rfl

/-! ### Well-formed tries -/

def IsSegment (s : Bytes) : Prop := ∀ c ∈ s, c ≠ 46 ∧ c ≠ 0

instance (s : Bytes) : Decidable (IsSegment s) := inferInstanceAs (Decidable (∀ c ∈ s, _))

/-- An entry that was added, with one of the contexts. -/
structure Fine (contexts : List Bytes) (e : EntryBuilder) : Prop where
  segment : IsSegment e.name
  named : e.name ≠ []
  context : ∃ c ∈ contexts, c ≠ [] ∧ e.context = some c

variable {contexts : List Bytes} {e : EntryBuilder}

theorem Fine.mem (h : Fine contexts e) (c : Bytes) (hc : e.context = some c) : c ∈ contexts := by
  obtain ⟨c', hc', -, heq⟩ := h.context
  cases heq.symm.trans hc
  exact hc'

/-- An entry of a well-formed trie has a context. -/
theorem Fine.ctx (h : Fine contexts e) : ∃ c, e.ctx = some c := by
  obtain ⟨c, -, hne, heq⟩ := h.context
  refine ⟨c, ?_⟩
  rw [EntryBuilder.ctx, heq]
  exact Option.filter_some_pos (bne_iff_ne.2 hne)

/-- No two children, prefixes or exact names of a node are the same. -/
inductive Wf (contexts : List Bytes) : BuilderNode → Prop
  | mk {e : EntryBuilder} {cs : List BuilderNode} {ps es : List EntryBuilder}
      (name : IsSegment e.name) (own : ∀ c, e.context = some c → c ∈ contexts)
      (childNames : (cs.map (·.entry.name)).Nodup) (children : ∀ c ∈ cs, Wf contexts c)
      (prefixNames : (ps.map (·.name)).Nodup) (prefixes : ∀ p ∈ ps, Fine contexts p)
      (exactNames : (es.map (·.name)).Nodup) (exacts : ∀ p ∈ es, Fine contexts p) :
      Wf contexts (mk e cs ps es)

theorem Wf.entryName (h : Wf contexts n) : IsSegment n.entry.name := by
  cases h
  assumption

variable {contexts' : List Bytes}

theorem Fine.mono (h : Fine contexts e)
    (hsub : ∀ c ∈ contexts, c ∈ contexts') : Fine contexts' e := by
  obtain ⟨c, hc, hne, he⟩ := h.context
  exact ⟨h.segment, h.named, c, hsub c hc, hne, he⟩

theorem Wf.mono (h : Wf contexts n) (hsub : ∀ c ∈ contexts, c ∈ contexts') : Wf contexts' n := by
  induction h with
  | mk name own childNames _ prefixNames prefixes exactNames exacts ih =>
    exact .mk name (fun c hc => hsub c (own c hc)) childNames ih prefixNames
      (fun p hp => (prefixes p hp).mono hsub) exactNames (fun p hp => (exacts p hp).mono hsub)

theorem Wf.new (hname : IsSegment name) : Wf contexts (new name) := by
  refine .mk hname ?_ List.nodup_nil ?_ List.nodup_nil ?_ List.nodup_nil ?_ <;> nofun

/-- `f` keeps nodes well-formed. -/
def KeepsWf (contexts : List Bytes) (f : BuilderNode → Except Bytes BuilderNode) : Prop :=
  ∀ n n', Wf contexts n → f n = .ok n' → Wf contexts n' ∧ n'.entry.name = n.entry.name

/-- A change of one child keeps the children well-formed and their names distinct. -/
theorem wf_modifyChild (hf : KeepsWf contexts f) (hname : IsSegment name)
    (hcs : ∀ c ∈ cs, Wf contexts c) (hnd : (cs.map (·.entry.name)).Nodup)
    (h : modifyChild name f cs = .ok cs') :
    (∀ c ∈ cs', Wf contexts c) ∧ (cs'.map (·.entry.name)).Nodup ∧
      ∀ x ∈ cs'.map (·.entry.name), x ∈ cs.map (·.entry.name) ∨ x = name := by
  induction cs generalizing cs' with
  | nil =>
    obtain ⟨c', hc, hcs'⟩ := exists_of_bind h
    cases hcs'
    obtain ⟨hwf, hn⟩ := hf _ _ (.new hname) hc
    refine ⟨by simpa using hwf, by simp, fun x hx => .inr ?_⟩
    rw [List.map_singleton, List.mem_singleton] at hx
    exact hx.trans hn
  | cons c cs ih =>
    rw [List.map_cons, List.nodup_cons] at hnd
    obtain ⟨hc, hcs⟩ := List.forall_mem_cons.1 hcs
    rw [modifyChild] at h
    split_ifs at h with hcn
    · obtain ⟨c', hc', hcs'⟩ := exists_of_bind h
      cases hcs'
      obtain ⟨hwf, hn⟩ := hf _ _ hc hc'
      refine ⟨List.forall_mem_cons.2 ⟨hwf, hcs⟩, ?_, fun x hx => .inl ?_⟩
      · rw [List.map_cons, List.nodup_cons, hn]
        exact hnd
      · rwa [List.map_cons, hn, ← List.map_cons (f := fun c : BuilderNode => c.entry.name)] at hx
    · obtain ⟨cs₁, hcs₁, hcs'⟩ := exists_of_bind h
      cases hcs'
      obtain ⟨hwf, hnd', hsub⟩ := ih hcs hnd.2 hcs₁
      refine ⟨List.forall_mem_cons.2 ⟨hc, hwf⟩, ?_, fun x hx => ?_⟩
      · rw [List.map_cons, List.nodup_cons]
        refine ⟨fun hmem => ?_, hnd'⟩
        rcases hsub _ hmem with hm | hm
        · exact hnd.1 hm
        · exact hcn hm
      · rw [List.map_cons, List.mem_cons] at hx ⊢
        rcases hx with rfl | hx
        · exact .inl (.inl rfl)
        · rcases hsub x hx with hx | hx
          · exact .inl (.inr hx)
          · exact .inr hx

theorem KeepsWf.modifyAt (hf : KeepsWf contexts f) {path : List Bytes}
    (hpath : ∀ s ∈ path, IsSegment s) : KeepsWf contexts (modifyAt f path) := by
  induction path with
  | nil => exact hf
  | cons piece path ih =>
    intro n n' hn h
    obtain ⟨hpiece, hpath⟩ := List.forall_mem_cons.1 hpath
    cases hn with
    | @mk e cs ps es name own childNames children prefixNames prefixes exactNames exacts =>
      obtain ⟨cs', hcs, h'⟩ := exists_of_bind h
      cases h'
      obtain ⟨hwf, hnd, -⟩ := wf_modifyChild (ih hpath) hpiece children childNames hcs
      exact ⟨.mk name own hnd hwf prefixNames prefixes exactNames exacts, rfl⟩

theorem nodup_added (hnd : (es.map (·.name)).Nodup)
    (h : es.any (·.name == last) = false) : ((es ++ [added entry last]).map (·.name)).Nodup := by
  rw [List.map_append, List.map_singleton]
  refine List.nodup_append.2 ⟨hnd, List.pairwise_singleton _ _, fun a ha b hb => ?_⟩
  obtain ⟨e, he, rfl⟩ := List.mem_map.1 ha
  rw [List.mem_singleton.1 hb]
  exact fun hname => List.any_eq_false.1 h e he (beq_iff_eq.2 hname)

theorem fine_added (hes : ∀ p ∈ es, Fine contexts p) (h : Fine contexts (added entry last)) :
    ∀ p ∈ es ++ [added entry last], Fine contexts p := by
  intro p hp
  rcases List.mem_append.1 hp with hp | hp
  · exact hes p hp
  · exact List.mem_singleton.1 hp ▸ h

/-- Adding the last piece of an entry keeps the trie well-formed. -/
theorem keepsWf_addLast {d : Bool} (h : IsSegment last) (hl : d = false → last ≠ [])
    (hx : entry.exactMatch = true → last ≠ []) (hc : entry.context ∈ contexts)
    (hne : entry.context ≠ []) : KeepsWf contexts (addLast entry last d) := by
  have hfine : last ≠ [] → Fine contexts (added entry last) :=
    fun hne' => ⟨h, hne', entry.context, hc, hne, rfl⟩
  intro n n' hn hok
  cases hexact : entry.exactMatch with
  | true =>
    obtain ⟨e, cs, ps, es, rfl, hany, rfl⟩ := addLast_of_exact hexact hok
    cases hn with
    | mk name own childNames children prefixNames prefixes exactNames exacts =>
      exact ⟨.mk name own childNames children prefixNames prefixes (nodup_added exactNames hany)
        (fine_added exacts (hfine (hx hexact))), rfl⟩
  | false =>
    cases d with
    | false =>
      obtain ⟨e, cs, ps, es, rfl, hany, rfl⟩ := addLast_of_short hexact hok
      cases hn with
      | mk name own childNames children prefixNames prefixes exactNames exacts =>
        exact ⟨.mk name own childNames children (nodup_added prefixNames hany)
          (fine_added prefixes (hfine (hl rfl))) exactNames exacts, rfl⟩
    | true =>
      obtain ⟨duplicate, heq⟩ := addLast_dotted last hexact
      rw [heq] at hok
      refine KeepsWf.modifyAt (fun n n' hn hok => ?_) (by simpa using h) n n' hn hok
      obtain ⟨e, cs, ps, es, rfl, -, rfl⟩ := setContext_ok hok
      cases hn with
      | mk name own childNames children prefixNames prefixes exactNames exacts =>
        refine ⟨.mk name (fun c hc' => ?_) childNames children prefixNames prefixes exactNames
          exacts, rfl⟩
        cases hc'
        exact hc

end BuilderNode

/-! ### Entries -/

/-- What the names and contexts of an entry are assumed to be. -/
structure PropertyInfoEntry.Plain (e : PropertyInfoEntry) : Prop where
  name : ∀ c ∈ e.name, c ≠ 0
  context : e.context ≠ []
  exact : e.exactMatch = true → e.name.getLast? ≠ some 46

theorem mem_setInsert {s x : Bytes} {l : List Bytes} : x ∈ setInsert s l ↔ x = s ∨ x ∈ l := by
  induction l with
  | nil => simp [setInsert]
  | cons y l ih =>
    rw [setInsert]
    split_ifs with hs hlt
    · subst hs
      simp
    · simp
    · rw [List.mem_cons, ih, List.mem_cons]
      exact or_left_comm

open BuilderNode List

namespace TrieBuilder

variable {b b' : TrieBuilder} {entry : PropertyInfoEntry}

/-- Where an entry is added. -/
theorem add_cases (h : b.add entry = .ok b') : ∃ path last d,
    (d = false ∧ last ≠ [] ∧ segments entry.name = path ++ [last] ∨
      d = true ∧ segments entry.name = path ++ [last, []]) ∧
    modifyAt (addLast entry last d) path b.root = .ok b'.root ∧
    b'.contexts = setInsert entry.context b.contexts := by
  have hne : segments entry.name ≠ [] := Bytes.split_ne_nil _ _
  unfold add at h
  cases hp : pieces entry.name with
  | mk ps d =>
    rw [hp] at h
    dsimp only at h
    cases hlast : ps.getLast? with
    | none =>
      rw [hlast] at h
      cases h
    | some last =>
      rw [hlast] at h
      obtain ⟨root, hroot, h'⟩ := exists_of_bind h
      cases h'
      refine ⟨ps.dropLast, last, d, ?_, hroot, rfl⟩
      have hps : ps = ps.dropLast ++ [last] := (dropLast_append_getLast? last hlast).symm
      unfold pieces at hp
      dsimp only at hp
      split_ifs at hp with hempty
      · cases hp
        right
        refine ⟨rfl, ?_⟩
        calc segments entry.name
            = (segments entry.name).dropLast ++ [[]] :=
              (dropLast_append_getLast? [] hempty).symm
          _ = (segments entry.name).dropLast.dropLast ++ [last] ++ [[]] := by rw [← hps]
          _ = _ := append_assoc _ _ _
      · cases hp
        left
        refine ⟨rfl, ?_, hps⟩
        rintro rfl
        exact hempty hlast

/-- What the entries that were added make of the trie. -/
structure Built (default : Bytes) (entries : List PropertyInfoEntry) (b : TrieBuilder) : Prop where
  wf : Wf b.contexts b.root
  exacts : ∀ k c, exactAt k b.root = some c ↔
    ∃ e ∈ entries, e.exactMatch = true ∧ segments e.name = k ∧ e.context = c
  prefixes : ∀ k c, prefixAt k b.root = some c ↔ (k = [[]] ∧ default ≠ [] ∧ c = default) ∨
    ∃ e ∈ entries, e.exactMatch = false ∧ segments e.name = k ∧ e.context = c
  contexts : ∀ c, c ∈ b.contexts ↔ c = default ∨ ∃ e ∈ entries, e.context = c
  names : ∀ e ∈ entries, e.name ≠ []

/-- A new builder has no entry and the default context. -/
theorem built_new (default type : Bytes) : Built default [] (new default type) := by
  refine ⟨.mk (by decide +kernel : IsSegment (.ofAscii "root")) ?_ nodup_nil nofun nodup_nil nofun
    nodup_nil nofun,
    fun k c => ?_, fun k c => ?_, ?_, nofun⟩
  · rintro c h
    cases h
    exact mem_singleton_self _
  · refine ⟨fun h => ?_, nofun⟩
    rcases k with - | ⟨s, - | ⟨t, k⟩⟩ <;> cases h
  · refine ⟨fun h => .inl ?_, ?_⟩
    · rcases k with - | ⟨s, - | ⟨t, k⟩⟩
      · cases h
      · rw [prefixAt] at h
        split_ifs at h with hs
        · obtain ⟨hc, hne⟩ := Option.filter_eq_some_iff.1 h
          cases hc
          exact ⟨by rw [hs], bne_iff_ne.1 hne, rfl⟩
        · cases h
      · cases h
    · rintro (⟨rfl, hne, rfl⟩ | ⟨e, he, -⟩)
      · rw [prefixAt, if_pos rfl]
        exact Option.filter_some_pos (bne_iff_ne.2 hne)
      · cases he
  · intro c
    simp [new]

/-- One more name has a context: that of the last entry. -/
theorem set_iff {S : List Bytes → Option Bytes} {S' : List Bytes → Option Bytes}
    {R : List Bytes → Bytes → Prop}
    {key : List Bytes} {v : Bytes} (hS : ∀ k c, S k = some c ↔ R k c) (hnone : S key = none)
    (hS' : ∀ k, S' k = if k = key then some v else S k) (k : List Bytes) (c : Bytes) :
    S' k = some c ↔ R k c ∨ key = k ∧ v = c := by
  rw [hS', ← hS]
  split_ifs with hk
  · subst hk
    rw [hnone]
    simp
  · simp [Ne.symm hk]

/-- An exact entry is added at its name. -/
theorem add_exact (hexact : entry.exactMatch = true) (he : entry.Plain) (h : b.add entry = .ok b') :
    exactAt (segments entry.name) b.root = none ∧
      (∀ k, exactAt k b'.root = if k = segments entry.name then some entry.context
        else exactAt k b.root) ∧
      ∀ k, prefixAt k b'.root = prefixAt k b.root := by
  obtain ⟨path, last, d, ⟨rfl, -, hkey⟩ | ⟨rfl, hkey⟩, hroot, -⟩ := add_cases h
  · have hset := sets_modifyAt (cons_ne_nil _ _) descends_exactAt
      (sets_exact last false hexact he.context) path
    have hkeep := sets_modifyAt (cons_ne_nil _ _) descends_prefixAt
      (keeps_prefixAt last false hexact) path
    rw [hkey]
    refine ⟨hset.before _ _ hroot, hset.found _ _ hroot, fun k => ?_⟩
    rw [hkeep.found _ _ hroot, ite_self]
  · refine absurd (Bytes.getLast_of_split (path ++ [last]) (by simp) ?_) (he.exact hexact)
    rw [append_assoc]
    exact hkey

/-- A prefix is added at its name. -/
theorem add_short (hexact : entry.exactMatch = false) (he : entry.Plain) (h : b.add entry = .ok b') :
    prefixAt (segments entry.name) b.root = none ∧
      (∀ k, prefixAt k b'.root = if k = segments entry.name then some entry.context
        else prefixAt k b.root) ∧
      ∀ k, exactAt k b'.root = exactAt k b.root := by
  obtain ⟨path, last, d, ⟨rfl, hl, hkey⟩ | ⟨rfl, hkey⟩, hroot, -⟩ := add_cases h
  · have hset := sets_modifyAt (cons_ne_nil _ _) descends_prefixAt
      (sets_prefixAt hexact he.context hl) path
    have hkeep := sets_modifyAt (cons_ne_nil _ _) descends_exactAt
      (keeps_exactAt last hexact) path
    rw [hkey]
    refine ⟨hset.before _ _ hroot, hset.found _ _ hroot, fun k => ?_⟩
    rw [hkeep.found _ _ hroot, ite_self]
  · have hset := sets_modifyAt (cons_ne_nil _ _) descends_prefixAt
      (sets_dotted last hexact he.context) path
    have hkeep := sets_modifyAt (cons_ne_nil _ _) descends_exactAt
      (keeps_exactAt_dotted last hexact) path
    rw [hkey]
    refine ⟨hset.before _ _ hroot, hset.found _ _ hroot, fun k => ?_⟩
    rw [hkeep.found _ _ hroot, ite_self]

theorem name_ne_nil (h : b.add entry = .ok b') : entry.name ≠ [] := by
  intro hnil
  have hseg : segments entry.name = [[]] := by
    rw [hnil]
    rfl
  obtain ⟨path, last, d, ⟨-, hl, hkey⟩ | ⟨-, hkey⟩, -⟩ := add_cases h <;> rw [hseg] at hkey
  · rcases path with - | ⟨x, path⟩
    · exact hl (List.cons.inj hkey).1.symm
    · have := congrArg List.length hkey
      simp at this
  · have := congrArg List.length hkey
    simp at this

theorem wf_add (hb : Wf b.contexts b.root) (he : entry.Plain) (h : b.add entry = .ok b') :
    Wf b'.contexts b'.root := by
  obtain ⟨path, last, d, hkey, hroot, hctx⟩ := add_cases h
  have hseg : ∀ s ∈ segments entry.name, IsSegment s := fun s hs c hc =>
    ⟨fun h46 => Bytes.not_mem_of_mem_split hs (h46 ▸ hc), he.name c (Bytes.mem_of_split hs hc)⟩
  have hpath : (∀ s ∈ path, IsSegment s) ∧ IsSegment last := by
    rcases hkey with ⟨-, -, hkey⟩ | ⟨-, hkey⟩ <;>
    · rw [hkey] at hseg
      exact ⟨fun s hs => hseg s (by simp [hs]), hseg last (by simp)⟩
  have hmem : entry.context ∈ b'.contexts := hctx ▸ mem_setInsert.2 (.inl rfl)
  have hlast : d = false → last ≠ [] := by
    rcases hkey with ⟨-, hl, -⟩ | ⟨rfl, -⟩
    · exact fun _ => hl
    · nofun
  have hx : entry.exactMatch = true → last ≠ [] := by
    intro hexact
    rcases hkey with ⟨-, hl, -⟩ | ⟨-, hkey⟩
    · exact hl
    · refine absurd (Bytes.getLast_of_split (path ++ [last]) (by simp) ?_) (he.exact hexact)
      rw [append_assoc]
      exact hkey
  exact ((keepsWf_addLast hpath.2 hlast hx hmem he.context).modifyAt hpath.1 _ _
    (hb.mono fun c hc => hctx ▸ mem_setInsert.2 (.inr hc)) hroot).1

variable {default : Bytes} {entries : List PropertyInfoEntry}

/-- An entry that is accepted is found from then on. -/
theorem Built.add (hb : Built default entries b)
    (he : entry.Plain) (h : b.add entry = .ok b') : Built default (entries ++ [entry]) b' := by
  have hctx : ∀ c, c ∈ b'.contexts ↔ c = default ∨ ∃ e ∈ entries ++ [entry], e.context = c := by
    obtain ⟨-, -, -, -, -, hctx⟩ := add_cases h
    intro c
    rw [hctx, mem_setInsert, hb.contexts]
    simp only [mem_append, mem_singleton, or_and_right, exists_or, exists_eq_left,
      eq_comm (a := c) (b := entry.context)]
    exact or_comm.trans or_assoc
  have hnames : ∀ e ∈ entries ++ [entry], e.name ≠ [] := by
    intro e he'
    rcases mem_append.1 he' with he' | he'
    · exact hb.names e he'
    · rw [mem_singleton.1 he']
      exact name_ne_nil h
  cases hexact : entry.exactMatch with
  | true =>
    obtain ⟨hnone, hset, hkeep⟩ := add_exact hexact he h
    refine ⟨wf_add hb.wf he h, fun k c => ?_, fun k c => ?_, hctx, hnames⟩
    · rw [set_iff hb.exacts hnone hset]
      simp [or_and_right, exists_or, hexact]
    · rw [hkeep, hb.prefixes]
      simp [or_and_right, exists_or, hexact]
  | false =>
    obtain ⟨hnone, hset, hkeep⟩ := add_short hexact he h
    refine ⟨wf_add hb.wf he h, fun k c => ?_, fun k c => ?_, hctx, hnames⟩
    · rw [hkeep, hb.exacts]
      simp [or_and_right, exists_or, hexact]
    · rw [set_iff hb.prefixes hnone hset]
      simp [or_and_right, exists_or, hexact, or_assoc]

/-- All the entries, one after another. -/
theorem built_addAll {done : List PropertyInfoEntry}
    (hb : Built default done b) (he : ∀ e ∈ entries, e.Plain) (h : addAll b entries = .ok b') :
    Built default (done ++ entries) b' := by
  induction entries generalizing b done with
  | nil =>
    cases h
    rwa [append_nil]
  | cons e entries ih =>
    rw [addAll, foldlM_cons] at h
    obtain ⟨b₁, hb₁, h'⟩ := exists_of_bind h
    have := ih (hb.add (he e (.head _)) hb₁)
      (fun q hq => he q (.tail e hq)) h'
    rwa [append_assoc] at this

end TrieBuilder

end Aim.Props.Contexts
