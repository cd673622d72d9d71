import Libc370.Stdlib.Heap

/-! What the heap is for, and that it does it.

To its callers the heap is a set of live blocks. A request gets a new one where nothing is
live, or NULL; a block holds what was stored in it until it is given back, and what
`realloc()` copies (`Does`). The code keeps no list of its blocks: which are live is what the
supervisor handed out, and what a block holds is read off its prefix (`Core.view`). Every run
of calls is a run of this specification (`heap_holds_blocks`), so no block overlaps another,
no FREEMAIN names anything but a whole area that is out, and when no block is live nothing
is. -/
namespace Libc370.Malloc

open Memory Machine

/-! ### What the heap is for -/

abbrev Blocks := Memory.Heap Nat

/-- The supervisor refuses some request. -/
def Short (gm : Supervisor) : Prop := ∃ lv sp rc, gm lv sp = .error rc

/-- NULL, and nothing done. That happens to a request that may not be made, or that the
supervisor refuses. -/
def Refused (h : Blocks) (may : Prop) (gm : Supervisor) (r : Answer) (h' : Blocks) : Prop :=
  r = .pointer 0 ∧ (¬ may ∨ Short gm) ∧ h' = h

/-- A new block where nothing is live. -/
structure Grants (h : Blocks) (p : Nat) (x : Block Nat) : Prop where
  pointer : p ≠ 0
  vacant : h.Vacant p x.bytes.length

/-- A block of `size` bytes, or NULL. -/
def Obtains (h : Blocks) (may : Prop) (gm : Supervisor) (key size : Nat) (holds : List UInt8 → Prop) (r : Answer)
    (h' : Blocks) : Prop :=
  Refused h may gm r h' ∨
    ∃ p bs, r = .pointer p ∧ may ∧ bs.length = size ∧ holds bs ∧ Grants h p ⟨key, bs⟩ ∧ h' = h.put p ⟨key, bs⟩

/-- A block of `size` bytes that begins as the one at `ptr` did, which is given back; or NULL, and it is kept. -/
def Moves (h : Blocks) (may : Prop) (gm : Supervisor) (ptr size : Nat) (r : Answer) (h' : Blocks) : Prop :=
  Refused h may gm r h' ∨
    ∃ p bs, r = .pointer p ∧ may ∧ bs.length = size ∧
      (∀ x, h ptr = some x → bs.take x.bytes.length = x.bytes.take size) ∧
      Grants h p ⟨0, bs⟩ ∧ h' = (h.put p ⟨0, bs⟩).drop ptr

/-- The longest block a length of 24 bits leaves. -/
def LONGEST : Nat := 0x00FFFFB8

/-- What a call answers and does to the live blocks; `key` is the key storage is got in. -/
def Does (key : Nat) (h : Blocks) : Call × Supervisor → Answer → Blocks → Prop
  | (.malloc size, gm), r, h' =>
    Obtains h (0 < size.toNat ∧ size.toNat ≤ MAX_CHUNK) gm 0 size.toNat (fun _ => True) r h'
  | (.calloc nmemb size, gm), r, h' =>
    let n := (nmemb.toNat * size.toNat + 7) / 8 * 8
    Obtains h (0 < n ∧ n ≤ MAX_CHUNK) gm 0 n (· = List.replicate n 0) r h'
  | (.realloc ptr size, gm), r, h' =>
    if size = 0 then r = .pointer 0 ∧ h' = h.drop ptr
    else Moves h (size.toNat ≤ MAX_CHUNK) gm ptr size.toNat r h'
  | (.free ptr, _), r, h' => r = .done ∧ h' = h.drop ptr
  | (.getmsp size _, gm), r, h' =>
    Obtains h (0 < size.toNat ∧ size.toNat ≤ LONGEST) gm 0 size.toNat (fun _ => True) r h'
  | (.getmain size _, gm), r, h' =>
    Obtains h (0 < size.toNat ∧ size.toNat ≤ LONGEST) gm key size.toNat (· = List.replicate size.toNat 0) r h'
  | (.freemain ptr, _), r, h' => (r = .code 0 ∧ h' = h.drop ptr) ∨ (r = .code (-1) ∧ h ptr = none ∧ h' = h)
  | (.setsp _, _), r, h' => (∃ old, r = .pointer old) ∧ h' = h
  | (.write ptr off bs, _), r, h' =>
    r = .done ∧ ∃ x, h ptr = some x ∧ h' = h.put ptr ⟨x.tag, Bytes.patch x.bytes off bs⟩
  | (.elsewhere _ _, _), r, h' => r = .done ∧ h' = h

/-! ### The blocks of the code -/

/-- The length of the block in an area, and the key beside it. -/
def asked (m : Mem) (g : Area) : Nat := word m (g.addr + 4) % 2 ^ 24

def keyOf (m : Mem) (g : Area) : Nat := word m (g.addr + 4) / 2 ^ 24

def block (m : Mem) (g : Area) : Block Nat := ⟨keyOf m g, load m (g.addr + 8) (asked m g)⟩

/-- The live blocks: what the supervisor has handed out, as the prefixes describe it. -/
def Core.view (s : Core) : Blocks := fun p => (s.areas.find? fun g => g.addr + 8 == p).map (block s.storage)

/-- Two areas that share no address. -/
def Area.Beside (g k : Area) : Prop := Apart g.addr g.lv k.addr k.lv

instance : Std.Symm Area.Beside := ⟨fun _ _ => Apart.symm⟩

/-- A prefix that describes its area. -/
structure Stamped (m : Mem) (g : Area) : Prop where
  first : word m g.addr = g.sp * 2 ^ 24 + g.lv
  short : g.lv < 2 ^ 24
  pos : 0 < asked m g
  length : g.lv = (asked m g + 71) / 64 * 64

/-- Areas that share no address, each with its prefix. -/
structure Sound (key : Nat) (s : Core) : Prop where
  stamped : ∀ g ∈ s.areas, Stamped s.storage g
  apart : s.areas.Pairwise Area.Beside
  key : s.pswkey = key

/-- The supervisor hands out nothing that is still out. -/
def Honest (s : Core) (gm : Supervisor) : Prop :=
  ∀ lv sp a, gm lv sp = .ok a → ∀ g ∈ s.areas, Apart a lv g.addr g.lv

/-- A piece of storage outside the heap. -/
def Outside (s : Core) (a n : Nat) : Prop := ∀ g ∈ s.areas, Apart a n g.addr g.lv

/-- The calls a program may make: it gives back and moves what it has, moves only what the
`malloc()` family or key 0 got, and stores in its blocks or outside the heap. A `freemain()`
of a pointer that is not a block's finds a length of zero before it. -/
def Admitted (s : Core) : Call × Supervisor → Prop
  | (.realloc ptr _, gm) => Honest s gm ∧ (ptr = 0 ∨ ∃ x, s.view ptr = some x ∧ x.tag = 0)
  | (.free ptr, _) => ptr = 0 ∨ ∃ x, s.view ptr = some x
  | (.freemain ptr, _) => ptr = 0 ∨ (∃ x, s.view ptr = some x) ∨ word s.storage (ptr - 8) % 2 ^ 24 = 0
  | (.setsp _, _) => Outside s (heapppa s.storage + 0x22) 1
  | (.write ptr off bs, _) => ∃ x, s.view ptr = some x ∧ off + bs.length ≤ x.bytes.length
  | (.elsewhere a bs, _) => Outside s a bs.length
  | (_, gm) => Honest s gm

/-! ### Areas and blocks -/

variable {key : Nat} {s s' : Core} {m m' : Mem} {g k : Area} {p : Nat} {x : Block Nat}

theorem Stamped.bounds (h : Stamped m g) : asked m g + 8 ≤ g.lv ∧ g.lv ≤ asked m g + 71 ∧ 0 < g.lv := by
  have hlength := h.length
  have hpos := h.pos
  omega

theorem block_length (m : Mem) (g : Area) : (block m g).bytes.length = asked m g := load_length ..

/-- A change beside an area is no change of its block. -/
theorem block_kept {a n : Nat} (hg : Stamped m g) (hkept : Kept m m' a n) (h : Apart a n g.addr g.lv) :
    block m' g = block m g ∧ Stamped m' g := by
  have hbounds := hg.bounds
  have hinside : ∀ o l, o + l ≤ g.lv → Apart a n (g.addr + o) l := fun o l hol =>
    h.inside le_rfl le_rfl (Nat.le_add_right ..) (by omega)
  have hfirst : word m' g.addr = word m g.addr := hkept.word (hinside 0 4 (by omega))
  have hsecond : word m' (g.addr + 4) = word m (g.addr + 4) := hkept.word (hinside 4 4 (by omega))
  have hasked : asked m' g = asked m g := by rw [asked, hsecond, asked]
  have hload := hkept.load (hinside 8 (asked m g) (by omega))
  refine ⟨?_, ⟨hfirst.trans hg.first, hg.short, ?_, ?_⟩⟩
  · rw [block, hasked, hload, keyOf, hsecond]
    rfl
  · rw [hasked]
    exact hg.pos
  · rw [hasked]
    exact hg.length

theorem Sound.distinct (h : Sound key s) (hg : g ∈ s.areas) (hk : k ∈ s.areas) (hne : g ≠ k) :
    Apart g.addr g.lv k.addr k.lv :=
  h.apart.forall hg hk hne

theorem Sound.same (h : Sound key s) (hg : g ∈ s.areas) (hk : k ∈ s.areas) (haddr : g.addr = k.addr) : g = k := by
  by_contra hne
  exact (h.distinct hg hk hne).ne (h.stamped g hg).bounds.2.2 (h.stamped k hk).bounds.2.2 haddr

theorem view_some (h : s.view p = some x) : ∃ g ∈ s.areas, g.addr + 8 = p ∧ x = block s.storage g := by
  obtain ⟨g, hfind, hx⟩ := Option.map_eq_some_iff.mp h
  exact ⟨g, List.mem_of_find?_eq_some hfind, by simpa using List.find?_some hfind, hx.symm⟩

theorem view_none (h : ∀ g ∈ s.areas, g.addr + 8 ≠ p) : s.view p = none := by
  have hfind : (s.areas.find? fun g => g.addr + 8 == p) = none := by
    rw [List.find?_eq_none]
    intro g hg
    simpa using h g hg
  rw [Core.view, hfind]
  rfl

theorem Sound.view_area (h : Sound key s) (hg : g ∈ s.areas) : s.view (g.addr + 8) = some (block s.storage g) := by
  cases hview : s.view (g.addr + 8) with
  | none =>
    rw [Core.view, Option.map_eq_none_iff, List.find?_eq_none] at hview
    exact absurd (hview g hg) (by simp)
  | some x =>
    obtain ⟨k, hk, haddr, rfl⟩ := view_some hview
    rw [h.same hk hg (Nat.add_right_cancel haddr)]

/-- States with the same areas and the same blocks in them look alike. -/
theorem Sound.view_congr (h : Sound key s) (h' : Sound key s') (hareas : s'.areas = s.areas)
    (hblock : ∀ g ∈ s.areas, block s'.storage g = block s.storage g) : s'.view = s.view := by
  funext p
  by_cases hp : ∃ g ∈ s.areas, g.addr + 8 = p
  · obtain ⟨g, hg, rfl⟩ := hp
    rw [h.view_area hg, h'.view_area (hareas ▸ hg), hblock g hg]
  · rw [not_exists] at hp
    rw [view_none fun g hg haddr => hp g ⟨hg, haddr⟩, view_none fun g hg haddr => hp g ⟨hareas ▸ hg, haddr⟩]

/-- Blocks are in areas, which are apart. -/
theorem Sound.spread (h : Sound key s) : s.view.Spread := by
  intro p q x y hp hq hne
  obtain ⟨g, hg, rfl, rfl⟩ := view_some hp
  obtain ⟨k, hk, rfl, rfl⟩ := view_some hq
  have hgk := h.distinct hg hk fun heq => hne (by rw [heq])
  have hgb := (h.stamped g hg).bounds
  have hkb := (h.stamped k hk).bounds
  rw [block_length, block_length]
  exact hgk.inside (by omega) (by omega) (by omega) (by omega)

theorem Sound.view_zero (_ : Sound key s) : s.view 0 = none := view_none fun _ _ => Nat.succ_ne_zero _

theorem Sound.of_same (h : Sound key s) (s' : Core) (hareas : s'.areas = s.areas) (hstorage : s'.storage = s.storage)
    (hkey : s'.pswkey = s.pswkey) : Sound key s' ∧ s'.view = s.view := by
  refine ⟨⟨?_, ?_, hkey.trans h.key⟩, ?_⟩
  · rw [hareas, hstorage]
    exact h.stamped
  · rw [hareas]
    exact h.apart
  · unfold Core.view
    rw [hareas, hstorage]

/-- What is stored outside the heap is no change of it. -/
theorem Sound.beside (h : Sound key s) (s' : Core) {a n : Nat} (hkept : Kept s.storage s'.storage a n)
    (hout : Outside s a n)
    (hareas : s'.areas = s.areas) (hkey : s'.pswkey = s.pswkey) : Sound key s' ∧ s'.view = s.view := by
  have hsame := fun g hg => block_kept (h.stamped g hg) hkept (hout g hg)
  have hsound : Sound key s' := by
    refine ⟨?_, ?_, hkey.trans h.key⟩
    · rw [hareas]
      exact fun g hg => (hsame g hg).2
    · rw [hareas]
      exact h.apart
  exact ⟨hsound, h.view_congr hsound hareas fun g hg => (hsame g hg).1⟩

/-- A new area with its prefix is a new block. -/
theorem Sound.added (h : Sound key s) (s' : Core) (hareas : s'.areas = g :: s.areas) (hkey : s'.pswkey = s.pswkey)
    (hkept : Kept s.storage s'.storage g.addr g.lv) (hout : Outside s g.addr g.lv) (hstamp : Stamped s'.storage g) :
    Sound key s' ∧ Grants s.view (g.addr + 8) (block s'.storage g) ∧
      s'.view = s.view.put (g.addr + 8) (block s'.storage g) := by
  have hbounds := hstamp.bounds
  have hsame := fun k hk => block_kept (h.stamped k hk) hkept (hout k hk)
  have hsound : Sound key s' := by
    refine ⟨?_, ?_, hkey.trans h.key⟩
    · rw [hareas]
      intro k hk
      rcases List.mem_cons.mp hk with rfl | hk
      · exact hstamp
      · exact (hsame k hk).2
    · rw [hareas]
      exact List.pairwise_cons.mpr ⟨hout, h.apart⟩
  refine ⟨hsound, ⟨Nat.succ_ne_zero _, ?_⟩, ?_⟩
  · intro q x hq
    obtain ⟨k, hk, rfl, rfl⟩ := view_some hq
    have hkb := (h.stamped k hk).bounds
    rw [block_length, block_length]
    exact (hout k hk).inside (by omega) (by omega) (by omega) (by omega)
  · funext p
    by_cases hp : p = g.addr + 8
    · rw [hp, Heap.put_self]
      exact hsound.view_area (hareas ▸ List.mem_cons_self ..)
    · rw [Heap.put_ne hp]
      by_cases hlive : ∃ k ∈ s.areas, k.addr + 8 = p
      · obtain ⟨k, hk, rfl⟩ := hlive
        rw [h.view_area hk, hsound.view_area (hareas ▸ List.mem_cons_of_mem _ hk), (hsame k hk).1]
      · rw [not_exists] at hlive
        rw [view_none fun k hk haddr => hlive k ⟨hk, haddr⟩]
        apply view_none
        rw [hareas]
        intro k hk haddr
        rcases List.mem_cons.mp hk with rfl | hk
        · exact hp haddr.symm
        · exact hlive k ⟨hk, haddr⟩

theorem Sound.nodup (h : Sound key s) : s.areas.Nodup := by
  refine List.Pairwise.imp_of_mem (fun {g k} hg hk hgk => ?_) h.apart
  rintro rfl
  exact hgk.ne (h.stamped g hg).bounds.2.2 (h.stamped g hg).bounds.2.2 rfl

/-- The heap without an area. -/
def Core.without (s : Core) (g : Area) : Core := { s with areas := s.areas.erase g }

theorem freed_area (hg : g ∈ s.areas) : s.freed g.addr g.lv g.sp = some (s.without g) := if_pos hg

/-- An area given back is a block less. -/
theorem Sound.without (h : Sound key s) (hg : g ∈ s.areas) :
    Sound key (s.without g) ∧ (s.without g).view = s.view.drop (g.addr + 8) := by
  have hmem : ∀ k, k ∈ s.areas.erase g ↔ k ≠ g ∧ k ∈ s.areas := fun k => h.nodup.mem_erase_iff
  have hsound : Sound key (s.without g) :=
    ⟨fun k hk => h.stamped k ((hmem k).mp hk).2, h.apart.sublist List.erase_sublist, h.key⟩
  refine ⟨hsound, ?_⟩
  funext p
  by_cases hp : p = g.addr + 8
  · rw [hp, Heap.drop_self]
    apply view_none
    intro k hk haddr
    obtain ⟨hne, hk⟩ := (hmem k).mp hk
    exact hne (h.same hk hg (Nat.add_right_cancel haddr))
  · rw [Heap.drop_ne hp]
    by_cases hlive : ∃ k ∈ s.areas, k.addr + 8 = p
    · obtain ⟨k, hk, rfl⟩ := hlive
      have hkg : k ≠ g := fun heq => hp (by rw [heq])
      rw [h.view_area hk]
      exact hsound.view_area ((hmem k).mpr ⟨hkg, hk⟩)
    · rw [not_exists] at hlive
      rw [view_none fun k hk haddr => hlive k ⟨hk, haddr⟩]
      exact view_none fun k hk haddr => hlive k ⟨((hmem k).mp hk).2, haddr⟩

/-- A store in a block shows in that block and nowhere else. -/
theorem Sound.written (h : Sound key s) (hg : g ∈ s.areas) {off : Nat} {bs : List UInt8}
    (hroom : off + bs.length ≤ asked s.storage g) :
    let s' : Core := { s with storage := store s.storage (g.addr + 8 + off) bs }
    Sound key s' ∧
      s'.view = s.view.put (g.addr + 8) ⟨keyOf s.storage g, Bytes.patch (block s.storage g).bytes off bs⟩ := by
  intro s'
  have hbounds := (h.stamped g hg).bounds
  have hkept : Kept s.storage s'.storage (g.addr + 8) (asked s.storage g) := kept_store _ hroom
  have hword : ∀ o, o + 4 ≤ 8 → word s'.storage (g.addr + o) = word s.storage (g.addr + o) := fun o ho =>
    hkept.word (Or.inr (by omega))
  have hfirst : word s'.storage g.addr = word s.storage g.addr := hword 0 (by omega)
  have hasked : asked s'.storage g = asked s.storage g := by rw [asked, hword 4 (by omega), asked]
  have hstamp : Stamped s'.storage g :=
    ⟨hfirst.trans (h.stamped g hg).first, (h.stamped g hg).short, by rw [hasked]; exact (h.stamped g hg).pos,
      by rw [hasked]; exact (h.stamped g hg).length⟩
  have hbeside : ∀ k ∈ s.areas, k ≠ g → block s'.storage k = block s.storage k ∧ Stamped s'.storage k := fun k hk hne =>
    block_kept (h.stamped k hk) hkept
      ((h.distinct hg hk hne.symm).inside (by omega) (by omega) le_rfl le_rfl)
  have hhere : block s'.storage g = ⟨keyOf s.storage g, Bytes.patch (block s.storage g).bytes off bs⟩ := by
    rw [block, hasked, keyOf, hword 4 (by omega), load_store_inside hroom]
    rfl
  have hsound : Sound key s' := by
    refine ⟨fun k hk => ?_, h.apart, h.key⟩
    by_cases hkg : k = g
    · rw [hkg]
      exact hstamp
    · exact (hbeside k hk hkg).2
  refine ⟨hsound, ?_⟩
  funext p
  by_cases hp : p = g.addr + 8
  · rw [hp, Heap.put_self, ← hhere]
    exact hsound.view_area hg
  · rw [Heap.put_ne hp]
    by_cases hlive : ∃ k ∈ s.areas, k.addr + 8 = p
    · obtain ⟨k, hk, rfl⟩ := hlive
      have hkg : k ≠ g := fun heq => hp (by rw [heq])
      rw [h.view_area hk, ← (hbeside k hk hkg).1]
      exact hsound.view_area hk
    · rw [not_exists] at hlive
      rw [view_none fun k hk haddr => hlive k ⟨hk, haddr⟩]
      exact view_none fun k hk haddr => hlive k ⟨hk, haddr⟩

/-! ### Requests -/

variable {gm : Supervisor} {size : Word}

theorem rounded_toNat (size : Word) : (rounded size).toNat = (size.toNat + 71) % 2 ^ 32 / 64 * 64 := by
  have hmask := multiple_toNat (size + 8 + (64 - 1)) 6
  have hsum : (size + 8 + (64 - 1) : Word).toNat = (size.toNat + 71) % 2 ^ 32 := by
    show ((size.toNat + 8) % 2 ^ 32 + 63) % 2 ^ 32 = _
    omega
  rw [hsum] at hmask
  exact hmask

/-- The requests that leave the high byte of the prefix to the subpool. -/
theorem rounded_fits (hsize : size.toNat ≤ 0x00FFFFFF) :
    (rounded size).toNat = (size.toNat + 71) / 64 * 64 ∧
      ((rounded size).toNat ≤ 0x00FFFFFF ↔ size.toNat ≤ LONGEST) := by
  rw [rounded_toNat, LONGEST, Nat.mod_eq_of_lt (by omega)]
  exact ⟨rfl, by omega⟩

/-- The words before the pointer are the prefix of the area. -/
theorem stamp_spec {a lv sp size : Nat} (hlv : lv < 2 ^ 24) (hsp : sp < 256) (htag : p < 256)
    (hsize : 0 < size) (hlength : lv = (size + 71) / 64 * 64) :
    let m' := (s.stamp a (sp * 2 ^ 24 + lv) (p * 2 ^ 24 + size)).storage
    Kept s.storage m' a lv ∧ Stamped m' ⟨a, lv, sp⟩ ∧ asked m' ⟨a, lv, sp⟩ = size ∧ keyOf m' ⟨a, lv, sp⟩ = p ∧
      load m' (a + 8) size = load s.storage (a + 8) size := by
  intro m'
  have hroom : ∀ (m : Mem) (o w : Nat), o + 4 ≤ lv → Kept m (putWord m (a + o) w) a lv := fun m o w ho =>
    kept_store m ho
  have hone : Kept s.storage (putWord s.storage a (sp * 2 ^ 24 + lv)) a 8 := kept_store_front _ (by simp)
  have htwo : Kept (putWord s.storage a (sp * 2 ^ 24 + lv)) m' a 8 := kept_store _ (by simp)
  have hkept : Kept s.storage m' a lv := (hroom _ 0 _ (by omega)).trans (hroom _ 4 _ (by omega))
  have hfirst : word m' a = sp * 2 ^ 24 + lv := by
    show word (putWord _ (a + 4) _) a = _
    rw [word_putWord_apart (Or.inr le_rfl), word_putWord (by omega)]
  have hsecond : word m' (a + 4) = p * 2 ^ 24 + size := word_putWord (by omega)
  have hasked : asked m' ⟨a, lv, sp⟩ = size := by
    show word m' (a + 4) % 2 ^ 24 = size
    rw [hsecond]
    omega
  refine ⟨hkept, ⟨hfirst, hlv, hasked ▸ hsize, by rw [hasked]; exact hlength⟩, hasked, ?_, ?_⟩
  · show word m' (a + 4) / 2 ^ 24 = p
    rw [hsecond]
    omega
  · exact (hone.trans htwo).load (Or.inl le_rfl)

/-- An allocator that asks for an area and puts the prefix there. -/
theorem Sound.obtained (h : Sound key s) {a lv sp : Nat} (tag : Nat) (size : Word) (hout : Outside s a lv)
    (hlv : lv < 2 ^ 24) (hsp : sp < 256) (htag : tag < 256) (hsize : 0 < size.toNat)
    (hlength : lv = (size.toNat + 71) / 64 * 64) {m : Mem} (hm : Kept s.storage m a lv) :
    let s' := ({ s with storage := m }.gotten a lv sp).stamp a (sp * 2 ^ 24 + lv) (tag * 2 ^ 24 + size.toNat)
    Sound key s' ∧ Grants s.view (a + 8) ⟨tag, load m (a + 8) size.toNat⟩ ∧
      s'.view = s.view.put (a + 8) ⟨tag, load m (a + 8) size.toNat⟩ := by
  intro s'
  obtain ⟨hkept, hstamp, hasked, hkey, hload⟩ :=
    stamp_spec (s := { s with storage := m }.gotten a lv sp) (p := tag) hlv hsp htag hsize hlength
  have hadded := h.added s' (g := ⟨a, lv, sp⟩) rfl rfl (hm.trans hkept) hout hstamp
  have hblock : block s'.storage ⟨a, lv, sp⟩ = ⟨tag, load m (a + 8) size.toNat⟩ := by
    rw [block, hasked, hkey]
    exact congrArg _ hload
  rwa [hblock] at hadded

/-- What `@@GETM` and `__getmsp()` share. -/
theorem obtain_does (h : Sound key s) (hgm : Honest s gm) {sp : Nat} (hsp : sp < 256) (hsize : 0 < size.toNat)
    (hlong : size.toNat ≤ LONGEST) :
    Sound key (obtain gm size sp s).2 ∧
      Obtains s.view (0 < size.toNat ∧ size.toNat ≤ LONGEST) gm 0 size.toNat (fun _ => True)
        (.pointer (obtain gm size sp s).1) (obtain gm size sp s).2.view := by
  have hlt : LONGEST ≤ 0x00FFFFFF := by decide
  obtain ⟨hround, hfits⟩ := rounded_fits (hlong.trans hlt)
  have hshort := hfits.mpr hlong
  unfold obtain
  cases hanswer : gm (rounded size).toNat sp with
  | error rc => exact ⟨h, .inl ⟨rfl, .inr ⟨_, _, _, hanswer⟩, rfl⟩⟩
  | ok a =>
    obtain ⟨hsound, hgrants, hview⟩ := h.obtained 0 size (m := s.storage) (hgm _ _ _ hanswer)
      (Nat.lt_succ_of_le hshort) hsp (by decide) hsize hround fun _ _ => rfl
    rw [Nat.zero_mul, Nat.zero_add] at hsound hview
    exact ⟨hsound, .inr ⟨_, _, rfl, ⟨hsize, hlong⟩, load_length .., trivial, hgrants, hview⟩⟩

/-- A request that may not be made. -/
theorem Sound.refused (h : Sound key s) {may : Prop} (hmay : ¬ may) {k size : Nat} {holds : List UInt8 → Prop} :
    Sound key s ∧ Obtains s.view may gm k size holds (.pointer 0) s.view :=
  ⟨h, .inl ⟨rfl, .inl hmay, rfl⟩⟩

theorem heapSubpool_lt (m : Mem) : heapSubpool m < 256 := by
  simp only [heapSubpool]
  split_ifs
  all_goals first | decide | exact UInt8.toNat_lt _

/-- The walk `@@GETM` makes for itself finds what `__getsp()` finds. -/
theorem heapSubpool_eq (s : Core) (htcb : word s.storage 0x21C ≠ 0) : heapSubpool s.storage = getsp s := by
  have hbytes : ∀ a, load s.storage a 4 = s.storage a :: load s.storage (a + 1) 3 := fun a => rfl
  have hlow : ∀ a, Bytes.number (load s.storage (a + 1) 3) = word s.storage a % 2 ^ 24 := by
    intro a
    have hlt := Bytes.number_lt (load s.storage (a + 1) 3)
    have hsplit := Bytes.number_append [s.storage a] (load s.storage (a + 1) 3)
    rw [load_length] at hlt hsplit
    rw [word, hbytes, ← List.singleton_append, hsplit]
    omega
  have heye : ∀ a, word s.storage a = Bytes.number ppaeye ↔ load s.storage a 4 = ppaeye := by
    intro a
    exact ⟨fun h => Bytes.number_injective (load_length ..) h, fun h => congrArg Bytes.number h⟩
  have hwalk := hlow (word s.storage 0x21C + 0x70)
  simp only [heapSubpool, getsp, heapppa]
  rw [if_neg htcb, show word s.storage 0x21C + 0x71 = word s.storage 0x21C + 0x70 + 1 from rfl, hwalk]
  generalize word s.storage (word s.storage 0x21C + 0x70) % 2 ^ 24 = fsa
  generalize word s.storage (fsa + 8) = ppa
  by_cases hfsa : fsa = 0
  · simp [hfsa]
  by_cases hnull : ppa = 0
  · simp [hfsa, hnull]
  by_cases hbig : ppa > 16777215
  · simp [hfsa, hnull, hbig]
  by_cases hload : load s.storage ppa 4 = ppaeye
  · simp [hfsa, hnull, hbig, hload, (heye ppa).mpr hload]
  · simp [hfsa, hnull, hbig, hload, mt (heye ppa).mp hload]

theorem getm_does (h : Sound key s) (hgm : Honest s gm) (size : Word) :
    Sound key (getm gm size s).2 ∧
      Obtains s.view (0 < size.toNat ∧ size.toNat ≤ LONGEST) gm 0 size.toNat (fun _ => True)
        (.pointer (getm gm size s).1) (getm gm size s).2.view := by
  unfold getm
  have hsign : size.toInt ≤ 0 ↔ size.toNat = 0 ∨ 2 ^ 31 ≤ size.toNat := by
    rw [BitVec.toInt_eq_toNat_cond]
    have := size.isLt
    split <;> omega
  split
  · next hneg =>
    refine h.refused ?_
    rw [LONGEST]
    have := hsign.mp hneg
    omega
  · next hpos =>
    rw [hsign] at hpos
    split
    · next hlong =>
      refine h.refused fun hmay => ?_
      have hlt : LONGEST ≤ 0x00FFFFFF := by decide
      exact absurd ((rounded_fits (hmay.2.trans hlt)).2.mpr hmay.2) (not_le.mpr hlong)
    · next hlong =>
      have hround := rounded_toNat size
      have hle : size.toNat ≤ LONGEST := by
        rw [LONGEST]
        omega
      exact obtain_does h hgm (heapSubpool_lt _) (by omega) hle

theorem getmsp_does (h : Sound key s) (hgm : Honest s gm) (sp : UInt8) :
    Sound key (getmsp gm size sp s).2 ∧
      Obtains s.view (0 < size.toNat ∧ size.toNat ≤ LONGEST) gm 0 size.toNat (fun _ => True)
        (.pointer (getmsp gm size sp s).1) (getmsp gm size sp s).2.view := by
  have hlt : LONGEST ≤ 0x00FFFFFF := by decide
  unfold getmsp
  split
  · next hno =>
    refine h.refused fun hmay => ?_
    rcases hno with rfl | hno
    · exact absurd hmay.1 (by decide)
    · exact absurd (hmay.2.trans hlt) (not_le.mpr hno)
  · next hyes =>
    rw [not_or] at hyes
    have hpos : 0 < size.toNat := Nat.pos_of_ne_zero fun hzero => hyes.1 (BitVec.eq_of_toNat_eq hzero)
    obtain ⟨-, hfits⟩ := rounded_fits (not_lt.mp hyes.2)
    split
    · next hlong => exact h.refused fun hmay => absurd (hfits.mpr hmay.2) (not_le.mpr hlong)
    · next hlong => exact obtain_does h hgm (UInt8.toNat_lt sp) hpos (hfits.mp (not_lt.mp hlong))

theorem MAX_CHUNK_le : MAX_CHUNK ≤ LONGEST := by decide

/-- A request is no more refused for what else is said of the blocks it may get. -/
theorem Obtains.imp {h h' : Blocks} {may may' : Prop} {k size : Nat} {holds : List UInt8 → Prop} {r : Answer}
    (ho : Obtains h may gm k size holds r h') (hmay : may' → may) (hyes : may → may') :
    Obtains h may' gm k size holds r h' := by
  rcases ho with ⟨hr, hno, hh⟩ | ⟨p, bs, hr, hm, hrest⟩
  · exact .inl ⟨hr, hno.imp_left (fun hn hm => hn (hmay hm)), hh⟩
  · exact .inr ⟨p, bs, hr, hyes hm, hrest⟩

theorem malloc_does (h : Sound key s) (hgm : Honest s gm) (size : Word) :
    Sound key (malloc gm size s).2 ∧
      Obtains s.view (0 < size.toNat ∧ size.toNat ≤ MAX_CHUNK) gm 0 size.toNat (fun _ => True)
        (.pointer (malloc gm size s).1) (malloc gm size s).2.view := by
  have hle := MAX_CHUNK_le
  have hnull : ∀ s' : Core, Sound key s' → s'.view = s.view →
      ¬ (0 < size.toNat ∧ size.toNat ≤ MAX_CHUNK) ∨ Short gm →
      Sound key ({ s' with errno := ENOMEM }.wto (outOfMemory size)) ∧
        Obtains s.view (0 < size.toNat ∧ size.toNat ≤ MAX_CHUNK) gm 0 size.toNat (fun _ => True) (.pointer 0)
          ({ s' with errno := ENOMEM }.wto (outOfMemory size)).view := by
    intro s' hs' hview hno
    obtain ⟨hsound, hsame⟩ := hs'.of_same ({ s' with errno := ENOMEM }.wto (outOfMemory size)) rfl rfl rfl
    exact ⟨hsound, .inl ⟨rfl, hno, hsame.trans hview⟩⟩
  unfold malloc
  split
  · next hzero =>
    subst hzero
    exact h.refused fun hmay => absurd hmay.1 (by decide)
  · next hzero =>
    have hpos : 0 < size.toNat := Nat.pos_of_ne_zero fun h0 => hzero (BitVec.eq_of_toNat_eq h0)
    by_cases hbig : size.toNat > MAX_CHUNK
    · simp only [if_pos hbig, if_true]
      exact hnull s h rfl (.inl fun hmay => absurd hmay.2 (not_le.mpr hbig))
    · simp only [if_neg hbig]
      obtain ⟨hsound, hgot⟩ := getm_does h hgm size
      rcases hgot with ⟨hr, hno, hview⟩ | ⟨p, bs, hr, -, hlen, htrue, hgrants, hview⟩
      · rw [if_pos (Answer.pointer.inj hr)]
        refine hnull _ hsound hview (hno.imp_left fun hn hmay => hn ⟨hpos, ?_⟩)
        omega
      · obtain rfl := Answer.pointer.inj hr
        rw [if_neg hgrants.pointer]
        exact ⟨hsound, .inr ⟨_, bs, rfl, ⟨hpos, not_lt.mp hbig⟩, hlen, htrue, hgrants, hview⟩⟩

theorem free_does (h : Sound key s) {ptr : Nat} (hptr : ptr = 0 ∨ ∃ x, s.view ptr = some x) :
    ∃ s', free ptr s = some s' ∧ Sound key s' ∧ s'.view = s.view.drop ptr := by
  by_cases hzero : ptr = 0
  · subst hzero
    exact ⟨s, rfl, h, (Heap.drop_absent h.view_zero).symm⟩
  · obtain ⟨x, hx⟩ := hptr.resolve_left hzero
    obtain ⟨g, hg, rfl, rfl⟩ := view_some hx
    have hstamp := h.stamped g hg
    have hfirst := hstamp.first
    have hshort := hstamp.short
    have hword : word s.storage g.addr % 2 ^ 24 = g.lv ∧ word s.storage g.addr / 2 ^ 24 = g.sp := by omega
    refine ⟨s.without g, ?_, h.without hg⟩
    rw [free, if_pos hzero, freem]
    simp only [Nat.add_sub_cancel, hword.1, hword.2]
    exact freed_area hg

/-- The bytes at the pointer to a live block that are stored to. -/
theorem Sound.stored (h : Sound key s) {ptr : Nat} (hptr : s.view ptr = some x) (off : Nat) {bs : List UInt8}
    (hroom : off + bs.length ≤ x.bytes.length) :
    let s' : Core := { s with storage := store s.storage (ptr + off) bs }
    Sound key s' ∧ s'.view = s.view.put ptr ⟨x.tag, Bytes.patch x.bytes off bs⟩ := by
  obtain ⟨g, hg, rfl, rfl⟩ := view_some hptr
  rw [block_length] at hroom
  exact h.written hg hroom

theorem total_toNat (nmemb size : Word) :
    (total nmemb size).toNat = (nmemb.toNat * size.toNat + 7) % 2 ^ 32 / 8 * 8 := by
  have hmask := multiple_toNat (nmemb * size + 7) 3
  have hsum : (nmemb * size + 7 : Word).toNat = (nmemb.toNat * size.toNat + 7) % 2 ^ 32 := by
    rw [BitVec.toNat_add, BitVec.toNat_mul]
    show (nmemb.toNat * size.toNat % 2 ^ 32 + 7) % 2 ^ 32 = _
    omega
  rw [hsum] at hmask
  exact hmask

/-- The check `calloc()` makes is that the product fits. -/
theorem overflows_iff (nmemb size : Word) :
    (size ≠ 0 ∧ nmemb > 0xFFFFFFF8 / size) ↔ 0xFFFFFFF8 < nmemb.toNat * size.toNat := by
  have hdiv : (0xFFFFFFF8 / size : Word).toNat = 0xFFFFFFF8 / size.toNat := BitVec.toNat_udiv
  by_cases hzero : size = 0
  · subst hzero
    simp
  · have hpos : 0 < size.toNat := Nat.pos_of_ne_zero fun h0 => hzero (BitVec.eq_of_toNat_eq h0)
    rw [gt_iff_lt, BitVec.lt_def, hdiv, Nat.div_lt_iff_lt_mul hpos]
    exact and_iff_right hzero

theorem calloc_does (h : Sound key s) (hgm : Honest s gm) (nmemb size : Word) :
    let n := (nmemb.toNat * size.toNat + 7) / 8 * 8
    Sound key (calloc gm nmemb size s).2 ∧
      Obtains s.view (0 < n ∧ n ≤ MAX_CHUNK) gm 0 n (· = List.replicate n 0)
        (.pointer (calloc gm nmemb size s).1) (calloc gm nmemb size s).2.view := by
  intro n
  have hmax : MAX_CHUNK = 6291456 := rfl
  unfold calloc
  by_cases hover : size ≠ 0 ∧ nmemb > 0xFFFFFFF8 / size
  · rw [if_pos hover]
    rw [overflows_iff] at hover
    obtain ⟨hsound, hview⟩ := h.of_same { s with errno := ENOMEM } rfl rfl rfl
    refine ⟨hsound, .inl ⟨rfl, .inl fun hmay => ?_, hview⟩⟩
    omega
  · rw [if_neg hover]
    rw [overflows_iff, not_lt] at hover
    have htotal : (total nmemb size).toNat = n := by
      rw [total_toNat, Nat.mod_eq_of_lt (by omega)]
    obtain ⟨hsound, hgot⟩ := malloc_does h hgm (total nmemb size)
    rw [htotal] at hgot
    rcases hgot with ⟨hr, hno, hview⟩ | ⟨p, bs, hr, hmay, hlen, -, hgrants, hview⟩
    · have hnull := Answer.pointer.inj hr
      simp only [hnull, ne_eq, not_true_eq_false, if_false]
      exact ⟨hsound, .inl ⟨rfl, hno, hview⟩⟩
    · obtain rfl := Answer.pointer.inj hr
      simp only [hgrants.pointer, ne_eq, not_false_eq_true, if_true]
      have hlive : (malloc gm (total nmemb size) s).2.view (malloc gm (total nmemb size) s).1 = some ⟨0, bs⟩ := by
        rw [hview, Heap.put_self]
      have hclear : (total nmemb size).toNat % 2 ^ 24 = n := by
        rw [htotal]
        omega
      have hroom : 0 + (List.replicate n (0 : UInt8)).length ≤ bs.length := by simp [hlen]
      obtain ⟨hs', hv'⟩ := hsound.stored hlive 0 hroom
      have hpatch : Bytes.patch bs 0 (List.replicate n 0) = List.replicate n 0 := by
        rw [Bytes.patch, List.take_zero, List.nil_append, List.length_replicate, Nat.zero_add,
          List.drop_eq_nil_of_le hlen.le, List.append_nil]
      unfold Core.clear
      rw [hclear]
      refine ⟨hs', .inr ⟨_, _, rfl, hmay, List.length_replicate, rfl, ⟨hgrants.pointer, ?_⟩, ?_⟩⟩
      · have hvacant := hgrants.vacant
        rw [hlen] at hvacant
        rwa [List.length_replicate]
      · exact hv'.trans (by rw [hview, Heap.put_put, hpatch])

/-- The word before a block of the `malloc()` family is its size. -/
theorem Sound.oldsize (h : Sound key s) {ptr : Nat} (hptr : s.view ptr = some x) (htag : x.tag = 0) :
    word s.storage (ptr - 4) = x.bytes.length ∧ load s.storage ptr x.bytes.length = x.bytes ∧
      x.bytes.length < 2 ^ 24 := by
  obtain ⟨g, hg, rfl, rfl⟩ := view_some hptr
  have hbounds := (h.stamped g hg).bounds
  have hshort := (h.stamped g hg).short
  have hzero : word s.storage (g.addr + 4) / 2 ^ 24 = 0 := htag
  rw [block_length]
  refine ⟨?_, rfl, by omega⟩
  rw [show g.addr + 8 - 4 = g.addr + 4 by omega, asked]
  omega

/-- A block copied to another one as far as both go, and given back. -/
theorem Sound.moved (h : Sound key s) {ptr p size : Nat} {bs : List UInt8} (hnew : s.view p = some ⟨0, bs⟩)
    (hold : s.view ptr = some x) (htag : x.tag = 0) (hne : ptr ≠ p) (hlen : bs.length = size) :
    let oldsize := word s.storage (ptr - 4)
    ∃ s', free ptr (s.memcpy p ptr (if oldsize < size then oldsize else size)) = some s' ∧ Sound key s' ∧
      s'.view = (s.view.put p ⟨0, Bytes.patch bs 0 (x.bytes.take size)⟩).drop ptr := by
  intro oldsize
  obtain ⟨hword, hload, hshort⟩ := h.oldsize hold htag
  have hmin : (if oldsize < size then oldsize else size) = min size x.bytes.length := by
    show (if word s.storage (ptr - 4) < size then word s.storage (ptr - 4) else size) = _
    rw [hword]
    split <;> omega
  have hcopied : load s.storage ptr (min size x.bytes.length % 2 ^ 24) = x.bytes.take size := by
    rw [Nat.mod_eq_of_lt (by omega), ← load_take, hload]
  have hroom : 0 + (x.bytes.take size).length ≤ bs.length := by
    rw [List.length_take]
    omega
  obtain ⟨hs', hview⟩ := h.stored hnew 0 hroom
  have hlive := (congrFun hview ptr).trans (Heap.put_ne hne)
  obtain ⟨s'', hfree, hs'', hdrop⟩ := free_does hs' (.inr ⟨x, hlive.trans hold⟩)
  refine ⟨s'', ?_, hs'', hdrop.trans (by rw [hview])⟩
  rw [hmin, Core.memcpy, hcopied]
  exact hfree

/-- The bytes put at the front of a longer or shorter list. -/
theorem take_patch_front {bs xs : List UInt8} {size : Nat} (hlen : bs.length = size) :
    (Bytes.patch bs 0 (xs.take size)).take xs.length = xs.take size := by
  rw [Bytes.patch, List.take_zero, List.nil_append, Nat.zero_add]
  by_cases hle : xs.length ≤ size
  · rw [List.take_of_length_le hle, List.take_left]
  · rw [List.drop_eq_nil_of_le (by rw [List.length_take]; omega), List.append_nil, List.take_take,
      Nat.min_eq_right (by omega)]

theorem realloc_does (h : Sound key s) (hgm : Honest s gm) {ptr : Nat}
    (hptr : ptr = 0 ∨ ∃ x, s.view ptr = some x ∧ x.tag = 0) (size : Word) (hsize : size ≠ 0) :
    ∃ r, realloc gm ptr size s = some r ∧ Sound key r.2 ∧
      Moves s.view (size.toNat ≤ MAX_CHUNK) gm ptr size.toNat (.pointer r.1) r.2.view := by
  have hpos : 0 < size.toNat := Nat.pos_of_ne_zero fun h0 => hsize (BitVec.eq_of_toNat_eq h0)
  obtain ⟨hsound, hgot⟩ := malloc_does h hgm size
  unfold realloc
  rw [if_neg hsize]
  rcases hgot with ⟨hr, hno, hview⟩ | ⟨p, bs, hr, hmay, hlen, -, hgrants, hview⟩
  · refine ⟨(0, (malloc gm size s).2), if_pos (Answer.pointer.inj hr), hsound, .inl ⟨rfl, ?_, hview⟩⟩
    exact hno.imp_left fun hn hmay => hn ⟨hpos, hmay⟩
  · obtain rfl := Answer.pointer.inj hr
    simp only [hgrants.pointer, if_false]
    rcases hptr with rfl | ⟨x, hx, htag⟩
    · -- Nothing is copied: a `realloc()` of NULL is a `malloc()`.
      refine ⟨_, if_neg (by simp), hsound, .inr ⟨_, bs, rfl, hmay.2, hlen, ?_, hgrants, ?_⟩⟩
      · intro x hx
        rw [h.view_zero] at hx
        cases hx
      · rw [hview, Heap.drop_absent]
        rw [Heap.put_ne hgrants.pointer.symm, h.view_zero]
    · have hzero : ptr ≠ 0 := by
        rintro rfl
        rw [h.view_zero] at hx
        cases hx
      have hposx : 0 < x.bytes.length := by
        obtain ⟨g, hg, -, rfl⟩ := view_some hx
        rw [block_length]
        exact (h.stamped g hg).pos
      have hne : ptr ≠ (malloc gm size s).1 := ((hgrants.vacant ptr x hx).ne (hlen ▸ hpos) hposx).symm
      have hnew : (malloc gm size s).2.view (malloc gm size s).1 = some ⟨0, bs⟩ := by rw [hview, Heap.put_self]
      have hold : (malloc gm size s).2.view ptr = some x := by rw [hview, Heap.put_ne hne, hx]
      obtain ⟨s', hfree, hs', hview'⟩ := hsound.moved hnew hold htag hne hlen
      have hpatch : (Bytes.patch bs 0 (x.bytes.take size.toNat)).length = bs.length :=
        Bytes.patch_length (by rw [List.length_take]; omega)
      refine ⟨((malloc gm size s).1, s'), ?_, hs', .inr ⟨_, _, rfl, hmay.2, hpatch.trans hlen, ?_, ?_, ?_⟩⟩
      · rw [if_pos hzero]
        exact congrArg (Option.map _) hfree
      · intro y hy
        obtain rfl := Option.some.inj (hx.symm.trans hy)
        exact take_patch_front hlen
      · refine ⟨hgrants.pointer, ?_⟩
        rw [hpatch]
        exact hgrants.vacant
      · rw [hview', hview, Heap.put_put]

theorem getmain_does (h : Sound key s) (hkey : key < 256) (hgm : Honest s gm) (size sp : Word) :
    Sound key (getmain gm size sp s).2 ∧
      Obtains s.view (0 < size.toNat ∧ size.toNat ≤ LONGEST) gm key size.toNat (· = List.replicate size.toNat 0)
        (.pointer (getmain gm size sp s).1) (getmain gm size sp s).2.view := by
  have hlt : LONGEST ≤ 0x00FFFFFF := by decide
  obtain rfl := h.key
  unfold getmain
  by_cases hzero : size = 0
  · subst hzero
    exact h.refused fun hmay => absurd hmay.1 (by decide)
  · have hpos : 0 < size.toNat := Nat.pos_of_ne_zero fun h0 => hzero (BitVec.eq_of_toNat_eq h0)
    simp only [if_neg hzero]
    by_cases hbig : size.toNat > 0x00FFFFFF ∨ (rounded size).toNat > 0x00FFFFFF
    · rw [if_pos hbig]
      refine h.refused fun hmay => ?_
      rcases hbig with hbig | hbig
      · exact absurd (hmay.2.trans hlt) (not_le.mpr hbig)
      · exact absurd ((rounded_fits (hmay.2.trans hlt)).2.mpr hmay.2) (not_le.mpr hbig)
    · rw [if_neg hbig]
      rw [not_or, not_lt, not_lt] at hbig
      obtain ⟨hround, hfits⟩ := rounded_fits hbig.1
      cases hanswer : gm (rounded size).toNat (sp.toNat % 256) with
      | error rc =>
        obtain ⟨hsound, hview⟩ :=
          h.of_same (s.wto (getmainFailed (rounded size).toNat (sp.toNat % 256) rc)) rfl rfl rfl
        exact ⟨hsound, .inl ⟨rfl, .inr ⟨_, _, _, hanswer⟩, hview⟩⟩
      | ok a =>
        have hlv : (rounded size).toNat % 2 ^ 24 = (rounded size).toNat := by omega
        have hkept : Kept s.storage (store s.storage a (List.replicate (rounded size).toNat 0)) a
            (rounded size).toNat := kept_store_front _ (by simp)
        obtain ⟨hsound, hgrants, hview⟩ := h.obtained s.pswkey size (hgm _ _ _ hanswer)
          (Nat.lt_succ_of_le hbig.2) (Nat.mod_lt _ (by decide)) hkey hpos hround hkept
        have hzeros : load (store s.storage a (List.replicate (rounded size).toNat 0)) (a + 8) size.toNat =
            List.replicate size.toNat 0 := by
          apply List.ext_getElem?
          intro i
          rw [load_getElem?, List.getElem?_replicate]
          split
          · rw [Nat.add_assoc, store_inside (by rw [List.length_replicate]; omega), List.getElem_replicate]
          · rfl
        rw [hzeros] at hgrants hview
        have hstate : ((s.gotten a (rounded size).toNat (sp.toNat % 256)).clear a (rounded size).toNat).stamp a
              (sp.toNat % 256 * 2 ^ 24 + (rounded size).toNat) (s.pswkey * 2 ^ 24 + size.toNat) =
            ({ s with storage := store s.storage a (List.replicate (rounded size).toNat 0) }.gotten a
              (rounded size).toNat (sp.toNat % 256)).stamp a (sp.toNat % 256 * 2 ^ 24 + (rounded size).toNat)
              (s.pswkey * 2 ^ 24 + size.toNat) := by
          rw [Core.clear, hlv]
          rfl
        simp only [hstate]
        exact ⟨hsound, .inr ⟨_, _, rfl, ⟨hpos, hfits.mp hbig.2⟩, List.length_replicate, rfl, hgrants, hview⟩⟩

/-- `freemain()` trusts every prefix the heap has made, and none with a length of zero. -/
theorem freemain_does (h : Sound key s) {ptr : Nat}
    (hptr : ptr = 0 ∨ (∃ x, s.view ptr = some x) ∨ word s.storage (ptr - 8) % 2 ^ 24 = 0) :
    ∃ r, freemain ptr s = some r ∧ Sound key r.2 ∧
      ((r.1 = 0 ∧ r.2.view = s.view.drop ptr) ∨ (r.1 = -1 ∧ s.view ptr = none ∧ r.2.view = s.view)) := by
  unfold freemain
  by_cases hzero : ptr = 0
  · subst hzero
    exact ⟨(0, s), rfl, h, .inl ⟨rfl, (Heap.drop_absent h.view_zero).symm⟩⟩
  rw [if_neg hzero]
  rcases hptr.resolve_left hzero with ⟨x, hx⟩ | hlv
  · obtain ⟨g, hg, rfl, rfl⟩ := view_some hx
    have hbounds := (h.stamped g hg).bounds
    have hfirst := (h.stamped g hg).first
    have hshort := (h.stamped g hg).short
    have hword : word s.storage g.addr % 2 ^ 24 = g.lv ∧ word s.storage g.addr / 2 ^ 24 = g.sp := by omega
    have hsize : word s.storage (g.addr + 4) % 2 ^ 24 = asked s.storage g := rfl
    have hpos := (h.stamped g hg).pos
    simp only [Nat.add_sub_cancel, hword.1, hword.2, hsize]
    rw [if_neg (by omega), if_neg (by omega)]
    obtain ⟨hsound, hview⟩ := h.without hg
    -- The area is cleared while it is still out; nothing of that is seen.
    have hclear : (s.clear g.addr g.lv).freed g.addr g.lv g.sp = some ((s.without g).clear g.addr g.lv) := freed_area hg
    have hkept : Kept (s.without g).storage ((s.without g).clear g.addr g.lv).storage g.addr g.lv :=
      kept_store_front _ (by simp [Nat.mod_le])
    have hout : Outside (s.without g) g.addr g.lv := by
      intro k hk
      obtain ⟨hne, hk⟩ := h.nodup.mem_erase_iff.mp hk
      exact h.distinct hg hk hne.symm
    obtain ⟨hsound, hsame⟩ := hsound.beside ((s.without g).clear g.addr g.lv) hkept hout rfl rfl
    exact ⟨_, congrArg (Option.map _) hclear, hsound, .inl ⟨rfl, hsame.trans hview⟩⟩
  · obtain ⟨hsound, hsame⟩ := h.of_same (s.wto ( badprefix s (ptr - 8) "duplicate freemain")) rfl rfl rfl
    refine ⟨_, if_pos (.inl hlv), hsound, .inr ⟨rfl, ?_, hsame⟩⟩
    cases hview : s.view ptr with
    | none => rfl
    | some x =>
      obtain ⟨g, hg, rfl, -⟩ := view_some hview
      have hfirst := (h.stamped g hg).first
      have hbounds := (h.stamped g hg).bounds
      have hshort := (h.stamped g hg).short
      rw [Nat.add_sub_cancel] at hlv
      omega

/-! ### Runs -/

/-- Every call does what it is for. -/
theorem step_does (hkey : key < 256) (h : Sound key s) {i : Call × Supervisor} (hi : Admitted s i) :
    Does key s.view i (step s i).1 (step s i).2.view ∧ Sound key (step s i).2 := by
  obtain ⟨c, gm⟩ := i
  cases c with
  | malloc size => exact (malloc_does h hi size).symm
  | calloc nmemb size => exact (calloc_does h hi nmemb size).symm
  | realloc ptr size =>
    by_cases hsize : size = 0
    · subst hsize
      obtain ⟨s', hfree, hs', hview⟩ := free_does h (hi.2.imp_right fun ⟨x, hx, _⟩ => ⟨x, hx⟩)
      have hstep : step s (.realloc ptr 0, gm) = (.pointer 0, s') := by
        rw [step, realloc, if_pos rfl, hfree]
        rfl
      rw [hstep]
      exact ⟨by rw [Does, if_pos rfl]; exact ⟨rfl, hview⟩, hs'⟩
    · obtain ⟨r, hrealloc, hsound, hmoves⟩ := realloc_does h hi.1 hi.2 size hsize
      have hstep : step s (.realloc ptr size, gm) = pointed r := by
        rw [step, hrealloc]
        rfl
      rw [hstep]
      exact ⟨by rw [Does, if_neg hsize]; exact hmoves, hsound⟩
  | free ptr =>
    obtain ⟨s', hfree, hs', hview⟩ := free_does h hi
    have hstep : step s (.free ptr, gm) = (.done, s') := by
      rw [step, hfree]
      rfl
    rw [hstep]
    exact ⟨⟨rfl, hview⟩, hs'⟩
  | getmsp size sp => exact (getmsp_does h hi sp).symm
  | getmain size sp => exact (getmain_does h hkey hi size sp).symm
  | freemain ptr =>
    obtain ⟨r, hfreemain, hsound, hdoes⟩ := freemain_does h hi
    have hstep : step s (.freemain ptr, gm) = (.code r.1, r.2) := by
      rw [step, hfreemain]
      rfl
    rw [hstep]
    exact ⟨hdoes.imp (fun hd => ⟨congrArg _ hd.1, hd.2⟩) (fun hd => ⟨congrArg _ hd.1, hd.2⟩), hsound⟩
  | setsp sp =>
    have hstep : step s (.setsp sp, gm) = pointed (setsp sp s) := rfl
    rw [hstep, setsp]
    split
    · exact ⟨⟨⟨0, rfl⟩, rfl⟩, h⟩
    · obtain ⟨hsound, hview⟩ := h.beside
        { s with storage := store s.storage (heapppa s.storage + 0x22) [sp] } (kept_self _ _ _) hi rfl rfl
      exact ⟨⟨⟨_, rfl⟩, hview⟩, hsound⟩
  | write ptr off bs =>
    obtain ⟨x, hx, hroom⟩ := hi
    obtain ⟨hsound, hview⟩ := h.stored hx off hroom
    exact ⟨⟨rfl, x, hx, hview⟩, hsound⟩
  | elsewhere a bs =>
    obtain ⟨hsound, hview⟩ := h.beside { s with storage := store s.storage a bs } (kept_self _ _ _) hi rfl rfl
    exact ⟨⟨rfl, hview⟩, hsound⟩

/-- **The heap holds blocks**: every run of calls answers and does what the specification
says, starting from nothing. The live blocks never overlap, each of them has an area of its
own, and no area is out without one. -/
theorem heap_holds_blocks {calls : List (Call × Supervisor)} (hempty : s.areas = []) (hkey : s.pswkey < 256)
    (hcalls : Along step Admitted s calls) :
    Follows (Does s.pswkey) Heap.empty calls (answers step s calls) (final step s calls).view ∧
      (final step s calls).view.Spread ∧
      (∀ p, ((final step s calls).view p).isSome ↔ ∃ g ∈ (final step s calls).areas, g.addr + 8 = p) ∧
      (final step s calls).areas.Nodup := by
  have hsound : Sound s.pswkey s := ⟨by rw [hempty]; exact fun g hg => absurd hg List.not_mem_nil,
    by rw [hempty]; exact List.Pairwise.nil, rfl⟩
  have hview : s.view = Heap.empty := by
    funext p
    exact view_none (by rw [hempty]; exact fun g hg => absurd hg List.not_mem_nil)
  obtain ⟨hfollows, hfinal⟩ :=
    follows_along Core.view (fun s i hs hi => step_does hkey hs hi) hsound hcalls
  rw [hview] at hfollows
  refine ⟨hfollows, hfinal.spread, fun p => ⟨fun hp => ?_, ?_⟩, hfinal.nodup⟩
  · obtain ⟨x, hx⟩ := Option.isSome_iff_exists.mp hp
    obtain ⟨g, hg, haddr, -⟩ := view_some hx
    exact ⟨g, hg, haddr⟩
  · rintro ⟨g, hg, rfl⟩
    rw [hfinal.view_area hg]
    rfl

/-- A supervisor that has storage at an address. -/
def hasAt (a : Nat) : Supervisor := fun _ _ => .ok a

/-- Ten bytes, two of them stored, moved to a hundred and given back. -/
def moving : List (Call × Supervisor) :=
  [(.malloc 10, hasAt 4096), (.write 4104 2 [193, 194], hasAt 0), (.realloc 4104 100, hasAt 8192),
    (.free 8200, hasAt 0)]

/-- A heap with nothing out. -/
def Core.bare : Core := ⟨fun _ => 0, [], 0, 0, []⟩

/-- The key and the length of a live block. -/
def shape (s : Core) (p : Nat) : Option (Nat × Nat) := (s.view p).map fun x => (x.tag, x.bytes.length)

theorem exists_shape {k n : Nat} (h : shape s p = some (k, n)) :
    ∃ x, s.view p = some x ∧ x.tag = k ∧ x.bytes.length = n := by
  obtain ⟨x, hx, hshape⟩ := Option.map_eq_some_iff.mp h
  exact ⟨x, hx, congrArg Prod.fst hshape, congrArg Prod.snd hshape⟩

/-- The states `moving` goes through. -/
def afterMalloc : Core := (step .bare (.malloc 10, hasAt 4096)).2

def afterWrite : Core := (step afterMalloc (.write 4104 2 [193, 194], hasAt 0)).2

def afterRealloc : Core := (step afterWrite (.realloc 4104 100, hasAt 8192)).2

theorem moving_shapes :
    shape afterMalloc 4104 = some (0, 10) ∧ shape afterWrite 4104 = some (0, 10) ∧
      shape afterRealloc 8200 = some (0, 100) ∧ afterWrite.areas = [⟨4096, 64, 0⟩] := by
  decide +kernel

theorem heap_holds_blocks_moving :
    Follows (Does 0) Heap.empty moving (answers step .bare moving) (final step .bare moving).view ∧
      (final step .bare moving).view.Spread ∧
      (∀ p, ((final step .bare moving).view p).isSome ↔ ∃ g ∈ (final step .bare moving).areas, g.addr + 8 = p) ∧
      (final step .bare moving).areas.Nodup := by
  obtain ⟨hfirst, hsecond, hthird, hareas⟩ := moving_shapes
  obtain ⟨x, hx, -, hxlen⟩ := exists_shape hfirst
  obtain ⟨y, hy, hytag, -⟩ := exists_shape hsecond
  obtain ⟨z, hz, -, -⟩ := exists_shape hthird
  apply heap_holds_blocks (s := .bare) rfl (show 0 < 256 by decide)
  have hfree : Along step Admitted afterRealloc [(.free 8200, hasAt 0)] := ⟨.inr ⟨z, hz⟩, trivial⟩
  refine ⟨fun _ _ _ _ g hg => absurd hg List.not_mem_nil, ⟨x, hx, hxlen ▸ (show 2 + 2 ≤ 10 by decide)⟩,
    ⟨?_, .inr ⟨y, hy, hytag⟩⟩, hfree⟩
  intro lv sp a ha g hg
  obtain rfl := Except.ok.inj ha
  obtain rfl := List.mem_singleton.mp (hareas ▸ hg)
  exact .inr (by decide)

end Libc370.Malloc
