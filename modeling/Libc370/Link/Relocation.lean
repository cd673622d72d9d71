import Libc370.Link.Rldr

/-! When the relocation of a module is right.

A constant should become what it was with the displacement added or taken off once for
each item that names it. `process_rldr()` fetches from the module as it was loaded,
whatever it has stored in the copy before, and does not look at the sign: what it stores
is always the constant with the displacement added once. -/
namespace Libc370.Link

open Bytes

/-- How far the module is moved. -/
def LoadModule.displacement (m : LoadModule) : Int := m.highlp.toNat - m.lowlp.toNat

/-- The records describe a module: two constants that they name are the same or lie apart. -/
def Describes (m : LoadModule) (records : List Record) : Prop :=
  ∀ i ∈ rldItems records, ∀ j ∈ rldItems records, ∀ c ∈ i.constant m.text.length, ∀ d ∈ j.constant m.text.length,
    c = d ∨ c.1 + c.2 ≤ d.1 ∨ d.1 + d.2 ≤ c.1

/-- How often the displacement is to be added to a constant, by the signs of its items. -/
def balance (size : Nat) (is : List Item) (c : Nat × Nat) : Int :=
  ((is.filter fun i => i.constant size = some c).map Item.sign).sum

/-- What is asked of the relocation. -/
structure Relocated (m : LoadModule) (records : List Record) : Prop where
  constants : ∀ i ∈ rldItems records, ∀ c ∈ i.constant m.text.length,
    (number (window (relocateLoad m records).copy c.1 c.2) : Int) =
      (number (window m.text c.1 c.2) + balance m.text.length (rldItems records) c * m.displacement) % 256 ^ c.2
  others : ∀ k, (∀ i ∈ rldItems records, ∀ c ∈ i.constant m.text.length, k < c.1 ∨ c.1 + c.2 ≤ k) →
    (relocateLoad m records).copy[k]? = m.text[k]?
  reads : ∀ w ∈ (relocateLoad m records).walks, ∀ k ∈ w.2, k < w.1.len

/-! ### The words -/

theorem fetch_toNat {bs : List UInt8} (h : bs.length ≤ 4) : (fetch bs).toNat = number bs := by
  induction bs using List.reverseRecOn with
  | nil => rfl
  | append_singleton bs b ih =>
    rw [List.length_append, List.length_singleton] at h
    have hlt := number_lt bs
    have hpow : 256 ^ bs.length ≤ 256 ^ 3 := Nat.pow_le_pow_right (by decide) (by omega)
    have hb := b.toNat_lt
    have hstep : fetch (bs ++ [b]) = fetch bs <<< 8 ||| b.toBitVec.setWidth 32 := by
      rw [fetch, List.foldl_append]
      rfl
    have hshift : (fetch bs <<< 8).toNat = number bs <<< 8 := by
      rw [BitVec.toNat_shiftLeft, ih (by omega), Nat.shiftLeft_eq]
      omega
    have hbyte : (b.toBitVec.setWidth 32).toNat = b.toNat := by
      rw [BitVec.toNat_setWidth, UInt8.toNat_toBitVec]
      omega
    rw [hstep, BitVec.toNat_or, hshift, hbyte, ← Nat.shiftLeft_add_eq_or_of_lt (by omega), number_append,
      Nat.shiftLeft_eq]
    simp [number]

theorem number_wordBytes (value : BitVec 32) {n : Nat} (h : 2 ≤ n) (hle : n ≤ 4) :
    number ((wordBytes value).drop (4 - n)) = value.toNat % 256 ^ n := by
  have := value.isLt
  interval_cases n <;> simp [wordBytes, number] <;> omega

theorem wordBytes_length (value : BitVec 32) {n : Nat} (hle : n ≤ 4) : ((wordBytes value).drop (4 - n)).length = n := by
  rw [List.length_drop, wordBytes, List.length_map]
  simp only [List.length_cons, List.length_nil]
  omega

/-- What is stored in the copy for a constant. -/
def newValue (m : LoadModule) (c : Nat × Nat) : BitVec 32 := fetch (window m.text c.1 c.2) - m.lowlp + m.highlp

/-- It is the constant with the displacement added once. -/
theorem newValue_mod {m : LoadModule} {c : Nat × Nat} (h : c.1 + c.2 ≤ m.text.length) (hle : c.2 ≤ 4) :
    (((newValue m c).toNat % 256 ^ c.2 : Nat) : Int) =
      (number (window m.text c.1 c.2) + m.displacement) % 256 ^ c.2 := by
  have hfetch := @fetch_toNat (window m.text c.1 c.2) (by rw [window_length h]; exact hle)
  have hlow := m.lowlp.isLt
  have hhigh := m.highlp.isLt
  have hdvd : (256 ^ c.2 : Int) ∣ 2 ^ 32 := by
    have hpow : (2 : Int) ^ 32 = 256 ^ 4 := by decide
    rw [hpow]
    exact pow_dvd_pow 256 hle
  have hsum : ((newValue m c).toNat : Int) = (number (window m.text c.1 c.2) + m.displacement) % 2 ^ 32 := by
    rw [newValue, BitVec.toNat_add, BitVec.toNat_sub, hfetch, LoadModule.displacement]
    omega
  push_cast
  rw [hsum, Int.emod_emod_of_dvd _ hdvd]

/-! ### Item by item -/

theorem relocateItems_nil (m : LoadModule) (copy : List UInt8) : relocateItems m copy [] = copy := rfl

theorem relocateItems_cons (m : LoadModule) (copy : List UInt8) (i : Item) (is : List Item) :
    relocateItems m copy (i :: is) = relocateItems m (relocate m copy i.flag i.offset).1 is := rfl

theorem relocateItems_append (m : LoadModule) (copy : List UInt8) (is js : List Item) :
    relocateItems m copy (is ++ js) = relocateItems m (relocateItems m copy is) js := List.foldl_append

/-- An item stores the constant that it names, and nothing else. -/
theorem relocate_spec {m : LoadModule} {copy : List UInt8} (hlen : copy.length = m.text.length) (i : Item) :
    (relocate m copy i.flag i.offset).1.length = m.text.length ∧
      (∀ k, (∀ c ∈ i.constant m.text.length, k < c.1 ∨ c.1 + c.2 ≤ k) →
        (relocate m copy i.flag i.offset).1[k]? = copy[k]?) ∧
      ∀ c ∈ i.constant m.text.length,
        window (relocate m copy i.flag i.offset).1 c.1 c.2 = (wordBytes (newValue m c)).drop (4 - c.2) := by
  rw [relocate_fst]
  cases hi : i.constant m.text.length with
  | none => exact ⟨hlen, fun k _ => rfl, fun c hc => absurd hc (Option.not_mem_none c)⟩
  | some c =>
    obtain ⟨o, n⟩ := c
    obtain ⟨-, hle, hfit⟩ := constant_bounds hi
    have hbytes := wordBytes_length (newValue m (o, n)) hle
    have hroom : o + ((wordBytes (newValue m (o, n))).drop (4 - n)).length ≤ copy.length := by omega
    refine ⟨(patch_length hroom).trans hlen, ?_, ?_⟩
    · intro k hk
      refine patch_getElem?_outside hroom ?_
      rw [hbytes]
      exact hk _ rfl
    · rintro c hc
      obtain rfl : (o, n) = c := Option.some.inj hc
      have hself := window_patch_self hroom
      rw [hbytes] at hself
      exact hself

/-- After the items every constant that is named is stored, and all else is as it was. -/
theorem relocateItems_spec {m : LoadModule} {is : List Item} {copy : List UInt8} (hlen : copy.length = m.text.length)
    (hapart : ∀ i ∈ is, ∀ j ∈ is, ∀ c ∈ i.constant m.text.length, ∀ d ∈ j.constant m.text.length,
      c = d ∨ c.1 + c.2 ≤ d.1 ∨ d.1 + d.2 ≤ c.1) :
    (relocateItems m copy is).length = m.text.length ∧
      (∀ k, (∀ i ∈ is, ∀ c ∈ i.constant m.text.length, k < c.1 ∨ c.1 + c.2 ≤ k) →
        (relocateItems m copy is)[k]? = copy[k]?) ∧
      ∀ i ∈ is, ∀ c ∈ i.constant m.text.length,
        window (relocateItems m copy is) c.1 c.2 = (wordBytes (newValue m c)).drop (4 - c.2) := by
  induction is using List.reverseRecOn with
  | nil => exact ⟨hlen, fun k _ => rfl, fun i hi => absurd hi List.not_mem_nil⟩
  | append_singleton is j ih =>
    obtain ⟨ihlen, ihothers, ihstored⟩ := ih fun i hi i' hi' =>
      hapart i (List.mem_append_left _ hi) i' (List.mem_append_left _ hi')
    obtain ⟨hlen', hothers, hstored⟩ := relocate_spec ihlen j
    have hj : j ∈ is ++ [j] := List.mem_append_right _ (List.mem_singleton_self j)
    rw [relocateItems_append, relocateItems_cons, relocateItems_nil]
    refine ⟨hlen', ?_, ?_⟩
    · intro k hk
      rw [hothers k (hk j hj), ihothers k fun i hi => hk i (List.mem_append_left _ hi)]
    · intro i hi c hc
      by_cases hsame : c ∈ j.constant m.text.length
      · exact hstored c hsame
      · -- the last item stores another constant, which lies apart
        have hi' : i ∈ is := by
          rcases List.mem_append.mp hi with hi' | hi'
          · exact hi'
          · obtain rfl := List.mem_singleton.mp hi'
            exact absurd hc hsame
        rw [← ihstored i hi' c hc]
        apply List.ext_getElem?
        intro k
        rw [window_getElem?, window_getElem?]
        split
        · refine hothers _ ?_
          intro d hd
          rcases hapart i hi j hj c hc d hd with heq | hbelow | habove
          · rw [heq] at hsame
            exact absurd hd hsame
          · omega
          · omega
        · rfl

/-! ### Record by record -/

theorem loadRecord_text {m : LoadModule} {s : Load} (h : s.loadtext = true) (r : Record) :
    loadRecord m s r = { s with loadtext := false } := by
  rw [loadRecord, if_pos h]

/-- A record that is no text is a control record or not, and an RLD record or not. -/
theorem loadRecord_record {m : LoadModule} {s : Load} (h : s.loadtext = false) (r : Record) :
    (loadRecord m s r).loadtext = (r.byte 0 &&& 0x01 == 0x01) ∧
      (loadRecord m s r).copy = (if r.byte 0 &&& 0x02 = 0x02 then (processRldr m s.copy r).copy else s.copy) ∧
      (loadRecord m s r).walks =
        s.walks ++ if r.byte 0 &&& 0x02 = 0x02 then [(r, (processRldr m s.copy r).reads)] else [] := by
  rw [loadRecord, if_neg (by rw [h]; exact Bool.false_ne_true)]
  by_cases hctl : r.byte 0 &&& 0x01 = 0x01
  · by_cases hrld : r.byte 0 &&& 0x02 = 0x02 <;> simp [hctl, hrld]
  · by_cases hrld : r.byte 0 &&& 0x02 = 0x02 <;> simp [hctl, hrld, h]

/-- The copy at the end of the member. -/
theorem load_copy {m : LoadModule} {records : List Record} {s : Load}
    (h : ∀ r ∈ rldRecords s.loadtext records, r.Bounded) :
    (records.foldl (loadRecord m) s).copy =
      relocateItems m s.copy ((rldRecords s.loadtext records).flatMap fun r => items false r.data) := by
  induction records generalizing s with
  | nil => cases s.loadtext <;> rfl
  | cons r rest ih =>
    rw [List.foldl_cons]
    cases htext : s.loadtext
    · obtain ⟨hnext, hcopy, -⟩ := @loadRecord_record m s htext r
      rw [htext, rldRecords] at h
      have hrest := fun r' hr' => h r' (List.mem_append_right _ hr')
      rw [← hnext] at hrest
      rw [ih hrest, hcopy, hnext, rldRecords, List.flatMap_append, relocateItems_append]
      by_cases hrld : r.byte 0 &&& 0x02 = 0x02
      · have hr : r.Bounded := h r (by rw [if_pos hrld]; exact List.mem_append_left _ (List.mem_singleton_self r))
        rw [if_pos hrld, if_pos hrld, (processRldr_spec m s.copy r).1, items_data hr, List.flatMap_singleton]
      · rw [if_neg hrld, if_neg hrld, List.flatMap_nil, relocateItems_nil]
    · rw [loadRecord_text htext]
      rw [htext, rldRecords] at h
      rw [ih h, rldRecords]

/-- The walks are those of the RLD records. -/
theorem load_walks (m : LoadModule) (records : List Record) (s : Load) :
    (∀ w ∈ (records.foldl (loadRecord m) s).walks,
        w ∈ s.walks ∨ ∃ r ∈ rldRecords s.loadtext records, ∃ copy, w = (r, (processRldr m copy r).reads)) ∧
      (∀ w ∈ s.walks, w ∈ (records.foldl (loadRecord m) s).walks) ∧
      ∀ r ∈ rldRecords s.loadtext records, ∃ copy,
        (r, (processRldr m copy r).reads) ∈ (records.foldl (loadRecord m) s).walks := by
  induction records generalizing s with
  | nil => exact ⟨fun w hw => .inl hw, fun w hw => hw, by cases s.loadtext <;> simp [rldRecords]⟩
  | cons r rest ih =>
    rw [List.foldl_cons]
    obtain ⟨ihfrom, ihkept, ihmade⟩ := ih (loadRecord m s r)
    cases htext : s.loadtext
    · obtain ⟨hnext, -, hwalks⟩ := @loadRecord_record m s htext r
      rw [hnext] at ihfrom ihmade
      rw [hwalks] at ihfrom ihkept
      refine ⟨?_, fun w hw => ihkept w (List.mem_append_left _ hw), ?_⟩
      · intro w hw
        rcases ihfrom w hw with hw' | ⟨r', hr', hmade⟩
        · rcases List.mem_append.mp hw' with hold | hnew
          · exact .inl hold
          · by_cases hrld : r.byte 0 &&& 0x02 = 0x02
            · rw [if_pos hrld] at hnew
              refine .inr ⟨r, ?_, s.copy, List.mem_singleton.mp hnew⟩
              rw [rldRecords, if_pos hrld]
              exact List.mem_append_left _ (List.mem_singleton_self r)
            · rw [if_neg hrld] at hnew
              exact absurd hnew List.not_mem_nil
        · exact .inr ⟨r', List.mem_append_right _ hr', hmade⟩
      · intro r' hr'
        rcases List.mem_append.mp hr' with hfirst | hlater
        · by_cases hrld : r.byte 0 &&& 0x02 = 0x02
          · rw [if_pos hrld] at hfirst
            obtain rfl := List.mem_singleton.mp hfirst
            refine ⟨s.copy, ihkept _ (List.mem_append_right _ ?_)⟩
            rw [if_pos hrld]
            exact List.mem_singleton_self _
          · rw [if_neg hrld] at hfirst
            exact absurd hfirst List.not_mem_nil
        · exact ihmade r' hlater
    · rw [loadRecord_text htext] at ihfrom ihkept ihmade ⊢
      exact ⟨ihfrom, ihkept, ihmade⟩

/-- The walks stay inside their records if and only if the records leave room. -/
theorem walks_bounded_iff (m : LoadModule) (records : List Record) :
    (∀ w ∈ (relocateLoad m records).walks, ∀ k ∈ w.2, k < w.1.len) ↔ ∀ r ∈ rldRecords false records, r.Bounded := by
  obtain ⟨hfrom, -, hmade⟩ := load_walks m records ⟨false, 0, m.text, []⟩
  constructor
  · intro h r hr
    obtain ⟨copy, hw⟩ := hmade r hr
    exact (reads_bounded_iff m copy r).mp (h _ hw)
  · intro h w hw
    rcases hfrom w hw with hnone | ⟨r, hr, copy, rfl⟩
    · exact absurd hnone List.not_mem_nil
    · exact (reads_bounded_iff m copy r).mpr (h r hr)

/-- What a constant is in the copy at the end. -/
theorem constant_number {m : LoadModule} {records : List Record} (h : Describes m records)
    (hb : ∀ r ∈ rldRecords false records, r.Bounded) {i : Item} (hi : i ∈ rldItems records) {c : Nat × Nat}
    (hc : c ∈ i.constant m.text.length) :
    (number (window (relocateLoad m records).copy c.1 c.2) : Int) =
      (number (window m.text c.1 c.2) + m.displacement) % 256 ^ c.2 := by
  have hcopy := @load_copy m records ⟨false, 0, m.text, []⟩ hb
  obtain ⟨-, -, hstored⟩ := @relocateItems_spec m (rldItems records) m.text rfl h
  obtain ⟨htwo, hfour, hfit⟩ := constant_bounds (o := c.1) (n := c.2) hc
  rw [relocateLoad, hcopy]
  dsimp only
  rw [← rldItems, hstored i hi c hc, number_wordBytes _ htwo hfour, newValue_mod hfit hfour]

/-- **When the relocation is right**: when the records leave room for the data that they
claim, and every constant has one more item that adds than items that take off, or is
moved by nothing that shows in its length. -/
theorem relocated_iff (m : LoadModule) (records : List Record) (h : Describes m records) :
    Relocated m records ↔ (∀ r ∈ rldRecords false records, r.Bounded) ∧
      ∀ i ∈ rldItems records, ∀ c ∈ i.constant m.text.length,
        (256 ^ c.2 : Int) ∣ (balance m.text.length (rldItems records) c - 1) * m.displacement := by
  have hvalue : ∀ c : Nat × Nat, ((number (window m.text c.1 c.2) + m.displacement) % 256 ^ c.2 =
      (number (window m.text c.1 c.2) + balance m.text.length (rldItems records) c * m.displacement) % 256 ^ c.2) ↔
      (256 ^ c.2 : Int) ∣ (balance m.text.length (rldItems records) c - 1) * m.displacement := by
    intro c
    have hdiff : ((number (window m.text c.1 c.2) : Int) +
        balance m.text.length (rldItems records) c * m.displacement) -
        (number (window m.text c.1 c.2) + m.displacement) =
        (balance m.text.length (rldItems records) c - 1) * m.displacement := by ring
    rw [← hdiff]
    exact Int.modEq_iff_dvd
  constructor
  · intro hright
    have hb := (walks_bounded_iff m records).mp hright.reads
    refine ⟨hb, fun i hi c hc => (hvalue c).mp ?_⟩
    rw [← constant_number h hb hi hc]
    exact hright.constants i hi c hc
  · rintro ⟨hb, hdvd⟩
    refine ⟨?_, ?_, (walks_bounded_iff m records).mpr hb⟩
    · intro i hi c hc
      rw [constant_number h hb hi hc]
      exact (hvalue c).mpr (hdvd i hi c hc)
    · intro k hk
      have hcopy := @load_copy m records ⟨false, 0, m.text, []⟩ hb
      rw [relocateLoad, hcopy]
      exact (@relocateItems_spec m (rldItems records) m.text rfl h).2.1 k hk

/-- A member with the one item `flag`, at offset 0 of a module of one word. -/
def oneWord (flag : UInt8) : LoadModule × List Record :=
  (⟨[0, 0, 0x10, 0x04], 0x1000, 0x5000⟩,
    [⟨fun k => [0x02, 0, 0, 0, 0, 0, 0, 8, 0, 0, 0, 0, 0, 0, 0, 0, 0, 1, 0, 1, flag, 0, 0, 0].getD k 0, 24⟩])

theorem relocated_oneWord : Relocated (oneWord 0x0C).1 (oneWord 0x0C).2 := by
  refine (relocated_iff _ _ ?_).mpr ⟨?_, ?_⟩
  · intro i hi j hj c hc d hd
    have hitems : rldItems (oneWord 0x0C).2 = [⟨0x0C, 0⟩] := rfl
    rw [hitems, List.mem_singleton] at hi hj
    subst hi hj
    exact .inl (Option.mem_unique hc hd)
  · intro r hr
    have hrecords : rldRecords false (oneWord 0x0C).2 = (oneWord 0x0C).2 := rfl
    rw [hrecords, oneWord, List.mem_singleton] at hr
    subst hr
    exact ⟨by decide, .inl (by decide)⟩
  · intro i hi c hc
    have hitems : rldItems (oneWord 0x0C).2 = [⟨0x0C, 0⟩] := rfl
    have hconstant : Item.constant (oneWord 0x0C).1.text.length ⟨0x0C, 0⟩ = some (0, 4) := rfl
    rw [hitems, List.mem_singleton] at hi
    subst hi
    rw [hconstant, Option.mem_some_iff] at hc
    subst hc
    decide

/-- A constant whose item takes the displacement off has it added. -/
theorem negative_added : ¬ Relocated (oneWord 0x0E).1 (oneWord 0x0E).2 := by
  intro h
  have hitem : (⟨0x0E, 0⟩ : Item) ∈ rldItems (oneWord 0x0E).2 := List.mem_singleton_self _
  have hconstant := h.constants _ hitem (0, 4) rfl
  exact absurd hconstant (by decide)

end Libc370.Link
