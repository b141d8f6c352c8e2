import Aim.Support.Bytes

/-!
# Memfd — A file in executable memory

A memfd that is mapped executable has its bytes moved into memory of a fixed size, while the
host's file keeps the length: reads and writes then go to the memory (`rw`), and `ftruncate`
changes the file only.  A `File` is the plain file, which is also what the host makes of the
calls before the conversion.

* `memfd_as_file`: the answers and sizes are those of a plain file as long as no call leaves the
  memory or grows the file over bytes that are not zero there.
* `append_lost_and_cut_byte_back`: where one does, they differ.
* `failed_conversion_keeps`, `views_fall_apart`: what a conversion that fails leaves of the views.

The mapping that converts passes its descriptor, from which `convert` takes the contents;
`extent` is how far the process's other views of the file reach.
-/

namespace Executable

/-- A file and the position of its descriptor. -/
structure File where
  size : ℕ
  data : ℕ → UInt8
  pos : ℕ := 0

/-- What reads at `i`: past the end it is zero once the file grows. -/
def File.byte (f : File) (i : ℕ) : UInt8 := if i < f.size then f.data i else 0

/-- The `len` bytes from `pos` on. -/
def bytesAt (data : ℕ → UInt8) (pos len : ℕ) : Bytes := (List.range len).map fun i => data (pos + i)

/-- The data with `bytes` at `pos`. -/
def put (data : ℕ → UInt8) (pos : ℕ) (bytes : Bytes) (i : ℕ) : UInt8 :=
  if pos ≤ i then bytes[i - pos]?.getD (data i) else data i

/-- A call; `pos` is the offset of a pread or pwrite. -/
inductive Call where
  | read (len : ℕ) (pos : Option ℕ)
  | write (bytes : Bytes) (pos : Option ℕ)
  | ftruncate (size : ℕ)

/-- What a call returns: the count, and the bytes of a read. -/
abbrev Answer := ℕ × Bytes

/-- A call without an offset of its own moves the position. -/
def File.seek (f : File) (pos : Option ℕ) (n : ℕ) : File :=
  if pos.isNone then { f with pos := f.pos + n } else f

def File.ftruncate (f : File) (size : ℕ) : File := { f with size, data := f.byte }

/-- The calls on a plain file. -/
def File.call (f : File) : Call → Answer × File
  | .read len pos =>
    let n := min len (f.size - pos.getD f.pos)
    ((n, bytesAt f.byte (pos.getD f.pos) n), f.seek pos n)
  | .write bytes pos =>
    let grown := max f.size (pos.getD f.pos + bytes.length)
    ((bytes.length, []),
      File.seek { f with
        size := if bytes = [] then f.size else grown
        data := put f.byte (pos.getD f.pos) bytes } pos bytes.length)
  | .ftruncate size => ((0, []), f.ftruncate size)

/-! ### The memfd -/

/-- A memory's size and bytes. -/
structure Memory where
  size : ℕ
  data : ℕ → UInt8

/-- A memfd: the host's file, and its memory in executable mode. -/
structure Memfd where
  file : File
  anon : Option Memory := none

def PAGE : ℕ := 16384

/-- The contents move into memory of whole pages. -/
def Memfd.convert (m : Memfd) (extent minSize : ℕ) : Memfd :=
  match m.anon with
  | some _ => m
  | none =>
    let size := (max (max m.file.size extent) minSize + (PAGE - 1)) / PAGE * PAGE
    { m with anon := some ⟨size, m.file.byte⟩ }

/-- read, write, pread and pwrite in executable mode go to the memory. -/
def Memfd.rw (m : Memfd) (a : Memory) : Call → Answer × Memfd
  | .read len pos =>
    let at_ := pos.getD m.file.pos
    let n := min len (min m.file.size a.size - at_)
    ((n, bytesAt a.data at_ n), { m with file := m.file.seek pos n })
  | .write bytes pos =>
    let at_ := pos.getD m.file.pos
    let n := min bytes.length (a.size - at_)
    let file := if m.file.size < at_ + n then m.file.ftruncate (at_ + n) else m.file
    ((n, []), ⟨file.seek pos n, some { a with data := put a.data at_ (bytes.take n) }⟩)
  | .ftruncate size => ((0, []), { m with file := m.file.ftruncate size })

def Memfd.call (m : Memfd) (c : Call) : Answer × Memfd :=
  match m.anon with
  | none => ((m.file.call c).1, { m with file := (m.file.call c).2 })
  | some a => m.rw a c

/-- What happens to a memfd. -/
inductive Event where
  | call (c : Call)
  | convert (extent minSize : ℕ)

/-- The answer to each call and the size after it. -/
def Memfd.run (m : Memfd) : List Event → List (Answer × ℕ)
  | [] => []
  | .convert extent minSize :: events => (m.convert extent minSize).run events
  | .call c :: events =>
    ((m.call c).1, (m.call c).2.file.size) :: (m.call c).2.run events

/-- The same calls on a plain file. -/
def File.run (f : File) : List Event → List (Answer × ℕ)
  | [] => []
  | .convert _ _ :: events => f.run events
  | .call c :: events => ((f.call c).1, (f.call c).2.size) :: (f.call c).2.run events

/-! ### Agreement -/

/-- The file can grow up to `i` and show zeroes. -/
def Memfd.Clean (m : Memfd) (a : Memory) (i : ℕ) : Prop :=
  ∀ j, m.file.size ≤ j → j < i → a.data j = 0

/-- In executable mode a call stays in the memory and grows the file over zeroes only; an empty
write starts inside the file. -/
def Memfd.Fits (m : Memfd) (c : Call) : Prop :=
  ∀ a, m.anon = some a →
    match c with
    | .read _ _ => True
    | .write bytes pos =>
      (bytes = [] → pos.getD m.file.pos ≤ m.file.size) ∧
        pos.getD m.file.pos + bytes.length ≤ a.size ∧ m.Clean a (pos.getD m.file.pos)
    | .ftruncate size => size ≤ a.size ∧ m.Clean a size

def Memfd.FitsAll (m : Memfd) : List Event → Prop
  | [] => True
  | .convert extent minSize :: events => (m.convert extent minSize).FitsAll events
  | .call c :: events => m.Fits c ∧ (m.call c).2.FitsAll events

/-- The memfd shows the plain file. -/
structure Shows (m : Memfd) (f : File) : Prop where
  size : m.file.size = f.size
  pos : m.file.pos = f.pos
  host : m.anon = none → m.file = f
  memory : ∀ a, m.anon = some a → f.size ≤ a.size ∧ ∀ i < f.size, a.data i = f.byte i

theorem bytesAt_congr (h : ∀ i, pos ≤ i → i < pos + n → a i = b i) :
    bytesAt a pos n = bytesAt b pos n :=
  List.map_congr_left fun i hi => h _ (by omega) (by have := List.mem_range.1 hi; omega)

theorem Shows.convert (h : Shows m f) (extent minSize : ℕ) : Shows (m.convert extent minSize) f := by
  unfold Memfd.convert
  split
  · exact h
  rename_i hnone
  refine ⟨h.size, h.pos, nofun, fun a ha => ?_⟩
  cases ha
  rw [h.host hnone]
  refine ⟨?_, fun i _ => rfl⟩
  simp only [PAGE] at *
  omega

theorem Shows.seek (h : Shows ⟨file, anon⟩ f) (pos : Option ℕ) (n : ℕ) :
    Shows ⟨file.seek pos n, anon⟩ (f.seek pos n) := by
  cases pos with
  | some _ => exact h
  | none =>
    refine ⟨h.size, congrArg (· + n) h.pos, fun e => ?_, h.memory⟩
    rw [show file = f from h.host e]

/-- A file in memory, cut or grown to a size up to which the memory shows it. -/
theorem Shows.of_memory {file f : File} {a : Memory} (hs : file.size = f.size) (hp : file.pos = f.pos)
    (hle : f.size ≤ a.size) (h : ∀ i < f.size, a.data i = f.data i) : Shows ⟨file, some a⟩ f :=
  ⟨hs, hp, nofun, fun b e => by
    cases e
    exact ⟨hle, fun i hi => (h i hi).trans (if_pos hi).symm⟩⟩

theorem Shows.write (h : Shows ⟨file, some a⟩ f) (hempty : bytes = [] → at_ ≤ f.size)
    (hlen : at_ + bytes.length ≤ a.size) (hclean : ∀ j, f.size ≤ j → j < at_ → a.data j = 0) :
    Shows ⟨if file.size < at_ + bytes.length then file.ftruncate (at_ + bytes.length) else file,
        some { a with data := put a.data at_ bytes }⟩
      { f with
        size := if bytes = [] then f.size else max f.size (at_ + bytes.length)
        data := put f.byte at_ bytes } := by
  obtain ⟨hsize, hbytes⟩ := h.memory a rfl
  have hs : file.size = f.size := h.size
  have hgrown : (if bytes = [] then f.size else max f.size (at_ + bytes.length)) =
      max f.size (at_ + bytes.length) := by
    split
    case isTrue e =>
      have := hempty e
      rw [e, List.length_nil]
      omega
    case isFalse => rfl
  refine .of_memory ?_ ?_ (by dsimp only; omega) fun i hi => ?_
  · split
    · simp only [File.ftruncate]; omega
    · dsimp only; omega
  · split <;> exact h.pos
  dsimp only at hi
  rcases Nat.lt_or_ge i f.size with hi' | hge
  · simp only [put, hbytes i hi']
  rcases Nat.lt_or_ge i at_ with hi' | hge'
  · simp only [put, if_neg (Nat.not_le.2 hi'), hclean i hge hi', File.byte,
      if_neg (Nat.not_lt.2 hge)]
  · simp only [put, if_pos hge', List.getElem?_eq_getElem (show i - at_ < bytes.length by omega),
      Option.getD_some]

theorem Shows.call (h : Shows m f) (hf : m.Fits c) :
    (m.call c).1 = (f.call c).1 ∧ Shows (m.call c).2 (f.call c).2 := by
  obtain ⟨file, _ | a⟩ := m
  · obtain rfl : file = f := h.host rfl
    exact ⟨rfl, rfl, rfl, fun _ => rfl, nofun⟩
  obtain ⟨hsize, hbytes⟩ := h.memory a rfl
  have hs : file.size = f.size := h.size
  have hp : file.pos = f.pos := h.pos
  specialize hf a rfl
  cases c with
  | read len pos =>
    simp only [Memfd.call, Memfd.rw, File.call, hs, hp, Nat.min_eq_left hsize]
    refine ⟨congrArg (Prod.mk _) (bytesAt_congr fun i _ hi => hbytes i ?_), h.seek pos _⟩
    omega
  | write bytes pos =>
    simp only [Memfd.Clean, hs, hp] at hf
    have hn := Nat.min_eq_left (Nat.le_sub_of_add_le' hf.2.1)
    simp only [Memfd.call, Memfd.rw, File.call, hp, hn, List.take_length, true_and]
    exact (h.write hf.1 hf.2.1 hf.2.2).seek pos _
  | ftruncate size =>
    refine ⟨rfl, .of_memory rfl h.pos hf.1 fun i hi => ?_⟩
    by_cases hold : i < f.size
    · exact hbytes i hold
    · exact (hf.2 i (hs ▸ Nat.le_of_not_lt hold) hi).trans (if_neg hold).symm

theorem Shows.run (events : List Event) :
    ∀ {m f}, Shows m f → m.FitsAll events → m.run events = f.run events := by
  induction events with
  | nil => exact fun _ _ => rfl
  | cons e events ih =>
    intro m f h hf
    cases e with
    | convert extent minSize => exact ih (h.convert extent minSize) hf
    | call c =>
      obtain ⟨heq, hshows⟩ := h.call hf.1
      rw [Memfd.run, File.run, heq, hshows.size, ih hshows hf.2]

/-- **A memfd as a file.**  Whatever the contents and wherever among the calls the conversion
comes, the answers and the sizes are the plain file's. -/
theorem memfd_as_file (file : File) (events : List Event)
    (h : (⟨file, none⟩ : Memfd).FitsAll events) :
    (⟨file, none⟩ : Memfd).run events = file.run events :=
  Shows.run events ⟨rfl, rfl, fun _ => rfl, nofun⟩ h

/-- Five bytes, written over, and grown in executable mode. -/
theorem memfd_as_file_grown :
    let file : File := ⟨5, fun _ => 7, 0⟩
    let events := [.call (.write [1] none), .convert 0 0, .call (.write [2] (some 8)),
      .call (.read 9 none)]
    (⟨file, none⟩ : Memfd).run events = file.run events :=
  memfd_as_file _ _ ⟨nofun, fun _ ha => Option.some.inj ha ▸ ⟨nofun, by decide, fun _ hj _ =>
    if_neg (Nat.not_lt.2 hj)⟩, fun _ _ => trivial, trivial⟩

/-- A page whose memory ends where it does. -/
def onePage : File := ⟨PAGE, fun _ => 7, 0⟩

/-- A write at the end of the memory, and a truncation that is undone. -/
def appendAndCut : List Event :=
  [.convert 0 0, .call (.write [7] (some PAGE)), .call (.ftruncate 0), .call (.ftruncate 1),
    .call (.read 1 (some 0))]

/-- The write returns 0 and the byte cut off is there again. -/
theorem append_lost_and_cut_byte_back :
    (⟨onePage, none⟩ : Memfd).run appendAndCut =
        [((0, []), PAGE), ((0, []), 0), ((0, []), 1), ((1, [7]), 1)] ∧
      onePage.run appendAndCut =
        [((1, []), PAGE + 1), ((0, []), 0), ((0, []), 1), ((1, [0]), 1)] := by
  decide +kernel

/-! ### Conversions that fail -/

/-- A shared view of the file from `off` on, and whether it shows the memory instead. -/
structure View where
  off : ℕ
  remapped : Bool := false

/-- A memfd and the views of it in the process.  The memory is what a conversion fills; `published`
once reads and writes go there. -/
structure Mapped where
  file : File
  memory : ℕ → UInt8 := fun _ => 0
  published : Bool := false
  views : List View

/-- Where a conversion fails; at a view, when it is remapped. -/
inductive Failure where
  | allocate
  | remap (view : ℕ)
  | setAttr
  deriving DecidableEq

/-- The views are remapped one by one, up to the one that fails. -/
def remapViews : List View → ℕ → Bool × List View
  | [], _ => (true, [])
  | views, 0 => (false, views)
  | v :: views, n + 1 =>
    let (ok, views) := remapViews views n
    (ok, { v with remapped := true } :: views)

/-- Whether the conversion succeeds, and what it leaves. -/
def Mapped.convert (m : Mapped) (failure : Option Failure) : Bool × Mapped :=
  if m.published then (true, m)
  else if failure = some .allocate then (false, m)
  else
    let stop := match failure with
      | some (.remap n) => n
      | _ => m.views.length
    let r := remapViews m.views stop
    let m := { m with memory := m.file.byte, views := r.2 }
    if !r.1 || failure = some .setAttr then (false, m) else (true, { m with published := true })

/-- An access to a byte: by the descriptor, or through a view, at an offset in it. -/
inductive Access where
  | fd (i : ℕ)
  | view (n i : ℕ)

/-- Whether the access goes to the memory, and to which byte of the file. -/
def Mapped.place (m : Mapped) : Access → Bool × ℕ
  | .fd i => (m.published, i)
  | .view n i => (m.views[n]?.map fun v => (v.remapped, v.off + i)).getD (m.published, i)

def Mapped.load (m : Mapped) (a : Access) : UInt8 :=
  if (m.place a).1 then m.memory (m.place a).2 else m.file.byte (m.place a).2

def Mapped.store (m : Mapped) (a : Access) (b : UInt8) : Mapped :=
  if (m.place a).1 then { m with memory := put m.memory (m.place a).2 [b] }
  else { m with file := { m.file with data := put m.file.data (m.place a).2 [b] } }

/-- The state after some stores. -/
def Mapped.stores (m : Mapped) (s : List (Access × UInt8)) : Mapped :=
  s.foldl (fun m s => m.store s.1 s.2) m

/-- Every access is to the file. -/
def Mapped.Plain (m : Mapped) : Prop := m.published = false ∧ ∀ v ∈ m.views, v.remapped = false

/-- Every byte of the file has one place: a view that shows the memory shows none of them. -/
def Mapped.Whole (m : Mapped) : Prop :=
  m.published = false ∧ ∀ v ∈ m.views, v.remapped → m.file.size ≤ v.off

/-- The views that are remapped before a conversion fails. -/
def Failure.reached (failure : Failure) (views : List View) : List View :=
  match failure with
  | .allocate => []
  | .remap n => views.take n
  | .setAttr => views

section

variable {m : Mapped}

/-- An access that goes to the memory goes through a view, if nothing is published. -/
theorem Mapped.place_view {a : Access} (h : m.published = false) (ha : (m.place a).1) :
    ∃ v ∈ m.views, v.remapped ∧ v.off ≤ (m.place a).2 := by
  cases a with
  | fd i =>
    rw [Mapped.place, h] at ha
    cases ha
  | view n i =>
    simp only [Mapped.place] at ha ⊢
    cases hv : m.views[n]? with
    | none =>
      rw [hv, Option.map_none, Option.getD_none, h] at ha
      cases ha
    | some v =>
      rw [hv] at ha
      exact ⟨v, List.mem_of_getElem? hv, ha, Nat.le_add_right _ _⟩

theorem Mapped.Whole.place (h : m.Whole) {a : Access} (ha : (m.place a).2 < m.file.size) :
    (m.place a).1 = false := by
  by_contra hm
  obtain ⟨v, hv, hr, hle⟩ := Mapped.place_view h.1 (Bool.of_not_eq_false hm)
  have := h.2 v hv hr
  omega

theorem Mapped.store_frame (m : Mapped) (a : Access) (b : UInt8) :
    (m.store a b).place = m.place ∧ (m.store a b).file.size = m.file.size ∧
      (m.Whole → (m.store a b).Whole) := by
  unfold Mapped.store
  split_ifs
  · exact ⟨rfl, rfl, id⟩
  · exact ⟨rfl, rfl, id⟩

/-- A read does not see what is stored to the memory. -/
theorem Mapped.load_fd_store {a : Access} (h : m.published = false) (ha : (m.place a).1) (b : UInt8)
    (i : ℕ) : (m.store a b).load (.fd i) = m.file.byte i := by
  rw [Mapped.store, if_pos ha]
  simp [Mapped.load, Mapped.place, h]

theorem Mapped.Whole.load_store (h : m.Whole) {a c : Access} (b : UInt8)
    (hsize : (m.place a).2 < m.file.size) (he : (m.place c).2 = (m.place a).2) :
    (m.store a b).load c = b := by
  have ha := h.place hsize
  have hc := h.place (he ▸ hsize)
  rw [Mapped.load, (m.store_frame a b).1, if_neg (by rw [hc]; decide), he, Mapped.store,
    if_neg (by rw [ha]; decide)]
  simp [File.byte, hsize, put]

theorem Mapped.Whole.stores (h : m.Whole) (s : List (Access × UInt8)) : (m.stores s).Whole := by
  induction s generalizing m with
  | nil => exact h
  | cons x s ih => exact ih ((m.store_frame x.1 x.2).2.2 h)

/-- A view that shows the memory. -/
def View.remap (v : View) : View := { v with remapped := true }

theorem remapViews_eq (views : List View) (n : ℕ) :
    remapViews views n = (decide (views.length ≤ n),
      (views.take n).map View.remap ++ views.drop n) := by
  induction views generalizing n with
  | nil => simp [remapViews]
  | cons v views ih =>
    cases n with
    | zero => simp [remapViews]
    | succ n => simp [remapViews, ih, View.remap]

/-- What a failed conversion leaves: the views it reached show a copy of the file. -/
theorem Mapped.Plain.convert (h : m.Plain) {failure : Failure}
    (hfail : (m.convert (some failure)).1 = false) :
    ∃ n, failure.reached m.views = m.views.take n ∧ ∃ memory, (0 < n → memory = m.file.byte) ∧
      (m.convert (some failure)).2 =
        { m with memory, views := (m.views.take n).map View.remap ++ m.views.drop n } := by
  obtain ⟨file, memory, published, views⟩ := m
  obtain ⟨rfl, -⟩ : published = false ∧ _ := h
  cases failure with
  | allocate => exact ⟨0, rfl, memory, fun h => absurd h (Nat.lt_irrefl 0), by simp [Mapped.convert]⟩
  | remap n =>
    refine ⟨n, rfl, file.byte, fun _ => rfl, ?_⟩
    simp only [Mapped.convert, remapViews_eq, Bool.false_eq_true, if_false, Option.some.injEq,
      reduceCtorEq] at hfail ⊢
    split_ifs at hfail ⊢
    rfl
  | setAttr =>
    refine ⟨views.length, (List.take_length).symm, file.byte, fun _ => rfl, ?_⟩
    simp [Mapped.convert, remapViews_eq]

/-- All accesses to a byte of the file see one content, which is the file's before any store. -/
def Mapped.ShowsOne (m : Mapped) (file : File) : Prop :=
  (∀ a, m.load a = file.byte (m.place a).2) ∧
    ∀ s a c b, ((m.stores s).place a).2 < (m.stores s).file.size →
      ((m.stores s).place c).2 = ((m.stores s).place a).2 →
      (m.stores s).load c = (m.stores s).load a ∧ ((m.stores s).store a b).load c = b

/-- **A failed conversion loses nothing** if and only if it reached no view of a byte of the file. -/
theorem failed_conversion_keeps (m : Mapped) (h : m.Plain) (failure : Failure)
    (hfail : (m.convert (some failure)).1 = false) :
    (m.convert (some failure)).2.ShowsOne m.file ↔
      ∀ v ∈ failure.reached m.views, m.file.size ≤ v.off := by
  obtain ⟨n, hreached, memory, hmemory, hm'⟩ := h.convert hfail
  rw [hm', hreached]
  set m' : Mapped := { m with memory, views := (m.views.take n).map View.remap ++ m.views.drop n }
  constructor
  · -- A store through a view of the memory is not seen by a read.
    intro hone v hv
    by_contra hlt
    obtain ⟨i, hi⟩ := List.mem_iff_getElem?.1 hv
    have hview : m'.views[i]? = some v.remap := by
      have hi' := List.getElem?_eq_some_iff.1 hi
      rw [List.getElem?_append_left (by simpa using hi'.1), List.getElem?_map, hi]
      rfl
    have hplace : m'.place (.view i 0) = (true, v.off) := by simp [Mapped.place, hview, View.remap]
    have hin : ((m'.stores []).place (.view i 0)).2 < m'.file.size :=
      (congrArg Prod.snd hplace).trans_lt (Nat.lt_of_not_le hlt)
    obtain ⟨b, hb⟩ : ∃ b, b ≠ m.file.byte v.off := ⟨m.file.byte v.off + 1, by simp⟩
    have hseen := (hone.2 [] _ (.fd v.off) b hin (congrArg Prod.snd hplace).symm).2
    rw [show m'.stores [] = m' from rfl,
      Mapped.load_fd_store (m := m') h.1 (congrArg Prod.fst hplace)] at hseen
    exact hb hseen.symm
  · intro hoff
    have hwhole : m'.Whole := by
      refine ⟨h.1, fun v hv hr => ?_⟩
      rcases List.mem_append.1 hv with hv | hv
      · obtain ⟨w, hw, rfl⟩ := List.mem_map.1 hv
        exact hoff w hw
      · rw [h.2 v (List.mem_of_mem_drop hv)] at hr
        cases hr
    refine ⟨fun a => ?_, fun s a c b hsize he => ?_⟩
    · rw [Mapped.load]
      split_ifs with ha
      · obtain ⟨v, hv, hr, -⟩ := Mapped.place_view (m := m') h.1 ha
        have hn : 0 < n := by
          rw [Nat.pos_iff_ne_zero]
          rintro rfl
          rw [h.2 v (by simpa [m'] using hv)] at hr
          cases hr
        exact congrFun (hmemory hn) _
      · rfl
    · have hs := hwhole.stores s
      refine ⟨?_, hs.load_store b hsize he⟩
      rw [Mapped.load, Mapped.load, hs.place hsize, hs.place (he ▸ hsize), he]

end

/-- The first of two views cannot be remapped. -/
theorem failed_conversion_keeps_first :
    let m : Mapped := { file := ⟨2, fun _ => 7, 0⟩, views := [⟨0, false⟩, ⟨1, false⟩] }
    (((m.convert (some (.remap 0))).2.store (.view 1 0) 9).load (.view 0 1)) = 9 :=
  (((failed_conversion_keeps _ ⟨rfl, by simp⟩ (.remap 0) rfl).2 (by simp [Failure.reached])).2 []
    (.view 1 0) (.view 0 1) 9 (by decide) rfl).2

/-- When the second view cannot be remapped, a store through the first is seen neither through the
second nor by a read; when the attribute cannot be set, it is seen through both and not by a read. -/
theorem views_fall_apart :
    let m : Mapped := { file := ⟨1, fun _ => 7, 0⟩, views := [⟨0, false⟩, ⟨0, false⟩] }
    let shown := fun failure => let r := m.convert (some failure)
      (r.1, [.view 0 0, .view 1 0, .fd 0].map ((r.2.store (.view 0 0) 9).load ·))
    shown (.remap 1) = (false, [9, 7, 7]) ∧ shown .setAttr = (false, [9, 9, 7]) := by
  decide

end Executable
