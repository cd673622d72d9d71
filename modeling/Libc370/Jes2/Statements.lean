import Libc370.Jes2.Callback
import Libc370.Jes2.IntxtEmit

/-! What a statement does to the fields of its caller.

A value that is copied out of a statement is a string of eight characters at most, of
forty-four for the name of a data set, and so it fits where it is copied to next. What
else there is in the record plays no part. -/
namespace Libc370.Jesjob

open Jes2 (read write read_eq write_eq)
open Loop Libc370.Bytes

/-! ### Short strings -/

/-- A field of `size` bytes that holds a string of `n` characters at most. -/
structure Short (n size : Nat) (f : List UInt8) : Prop where
  length : f.length = size
  nul : ∃ i ≤ n, f[i]? = some 0

variable {n m size : Nat} {f : List UInt8}

theorem Short.mono (h : Short n size f) (hle : n ≤ m) : Short m size f := by
  obtain ⟨i, hi, hnul⟩ := h.nul
  exact ⟨h.length, i, hi.trans hle, hnul⟩

theorem Short.terminated (h : Short n size f) : Terminated size f := by
  obtain ⟨i, -, hnul⟩ := h.nul
  exact ⟨h.length, List.mem_of_getElem? hnul⟩

theorem Short.zero (n : Nat) (hsize : 0 < size) : Short n size (List.replicate size 0) :=
  ⟨List.length_replicate, 0, Nat.zero_le n, by rw [List.getElem?_replicate, if_pos hsize]⟩

/-- The first byte of a string's field. -/
theorem Short.head (h : Short n size f) : ∃ c, f.head? = some c := by
  obtain ⟨i, -, hnul⟩ := h.nul
  cases f with
  | nil => simp at hnul
  | cons c f => exact ⟨c, rfl⟩

/-- A scan that stops at the NUL stops there at the latest. -/
theorem stepOver_le {p : UInt8 → Bool} (hp : p 0 = false) {s : List UInt8} {i : Nat} (h : s[i]? = some 0) :
    ∃ k, stepOver p s = some k ∧ k ≤ i := by
  induction s generalizing i with
  | nil => simp at h
  | cons c s ih =>
    rw [stepOver]
    cases hc : p c with
    | false => exact ⟨0, rfl, Nat.zero_le i⟩
    | true =>
      cases i with
      | zero =>
        obtain rfl : c = 0 := by simpa using h
        rw [hp] at hc
        cases hc
      | succ i =>
        obtain ⟨k, hk, hle⟩ := ih (by simpa using h)
        refine ⟨k + 1, ?_, Nat.succ_le_succ hle⟩
        rw [if_pos rfl, hk]
        rfl

theorem write_short (h : n < f.length) : ∃ f', write f n [0] = some f' ∧ Short n f.length f' := by
  have hfit : n + ([0] : List UInt8).length ≤ f.length := h
  exact ⟨_, write_eq hfit, patch_length hfit, n, le_rfl, patch_getElem?_inside hfit (i := 0) Nat.one_pos⟩

theorem clear_short (h : 0 < f.length) : ∃ f', clear f = some f' ∧ Short 0 f.length f' := write_short h

theorem cutblank_short (h : Short n size f) : ∃ f', cutblank f = some f' ∧ Short n size f' := by
  obtain ⟨i, hi, hnul⟩ := h.nul
  have hlt := (List.getElem?_eq_some_iff.mp hnul).1
  obtain ⟨first, hfirst, hle⟩ := stepOver_le (p := fun c => c = blank) (by decide) hnul
  have hrest : (f.drop first)[i - first]? = some 0 := by
    rw [List.getElem?_drop, Nat.add_sub_cancel' hle]
    exact hnul
  obtain ⟨last, hlast, hle'⟩ := stepOver_le (p := fun c => c ≠ 0 ∧ c ≠ blank) (by decide) hrest
  obtain ⟨f', hwrite, hshort⟩ := write_short (f := f) (n := first + last) (by omega)
  rw [h.length] at hshort
  refine ⟨f', ?_, hshort.mono (by omega)⟩
  simp only [cutblank, hfirst, Option.bind_eq_bind, Option.bind_some, hlast, hwrite]

/-- What is copied out of a record is no longer than was asked for. -/
theorem copy_short {record : List UInt8} {data : Nat} (h : data + n ≤ record.length) (hn : n < f.length) :
    ∃ f', copy record data n f = some f' ∧ Short n f.length f' := by
  have hlen : (window record data n).length = n := window_length h
  have hfit : 0 + (window record data n).length ≤ f.length := by omega
  have hsize := patch_length hfit
  obtain ⟨g, hg, hshort⟩ := write_short (f := patch f 0 (window record data n)) (n := n) (by omega)
  rw [hsize] at hshort
  obtain ⟨f', hcut, hf'⟩ := cutblank_short hshort
  refine ⟨f', ?_, hf'⟩
  simp only [copy, read_eq h, write_eq hfit, Option.bind_eq_bind, Option.bind_some, hg, hcut]

theorem takeWhile_length_le {p : UInt8 → Bool} (hp : p 0 = false) {s : List UInt8} {i : Nat} (h : s[i]? = some 0) :
    (s.takeWhile p).length ≤ i := by
  induction s generalizing i with
  | nil => exact Nat.zero_le i
  | cons c s ih =>
    rw [List.takeWhile_cons]
    split
    · next hc =>
      cases i with
      | zero =>
        obtain rfl : c = 0 := by simpa using h
        rw [hp] at hc
        cases hc
      | succ i => exact Nat.succ_le_succ (ih (by simpa using h))
    · exact Nat.zero_le i

theorem cstr_short (h : Short n size f) : ∃ s, cstr f = some s ∧ s.length ≤ n ∧ 0 ∉ s := by
  obtain ⟨i, hi, hnul⟩ := h.nul
  refine ⟨_, if_pos h.terminated.nul, ?_, ?_⟩
  · exact (takeWhile_length_le (by decide) hnul).trans hi
  · intro hmem
    have hne := List.mem_takeWhile_imp hmem
    simp at hne

/-- A string that is put into a field. -/
theorem put_short {s : List UInt8} (hs : 0 ∉ s) (hlen : s.length < f.length) :
    ∃ f', write f 0 (s ++ [0]) = some f' ∧ Short s.length f.length f' ∧ cstr f' = some s := by
  have hfit : 0 + (s ++ [(0 : UInt8)]).length ≤ f.length := by simpa using hlen
  have hpatch : patch f 0 (s ++ [0]) = s ++ 0 :: f.drop (s.length + 1) := by simp [patch]
  refine ⟨_, write_eq hfit, ⟨patch_length hfit, s.length, le_rfl, ?_⟩, ?_⟩
  · rw [hpatch, List.getElem?_append_right le_rfl, Nat.sub_self]
    rfl
  · have hnul : (0 : UInt8) ∈ patch f 0 (s ++ [0]) := by rw [hpatch]; simp
    rw [cstr, if_pos hnul, hpatch, List.takeWhile_append_of_pos]
    · simp
    · intro c hc
      simpa using fun h : c = 0 => hs (h ▸ hc)

theorem strcpy_short {src : List UInt8} (h : Short n m src) (hlen : n < f.length) :
    ∃ f', strcpy f src = some f' ∧ Short n f.length f' ∧ cstr f' = cstr src := by
  obtain ⟨s, hs, hle, hnul⟩ := cstr_short h
  obtain ⟨f', hwrite, hshort, hcstr⟩ := put_short (f := f) hnul (by omega)
  refine ⟨f', ?_, hshort.mono hle, hcstr.trans hs.symm⟩
  simp only [strcpy, hs, Option.bind_eq_bind, Option.bind_some, hwrite]

/-! ### The walks over a statement -/

/-- Whatever fields a turn comes to are right. -/
def TurnGives {σ : Type} (Q : σ → Prop) : Turn (Nat × σ) (Option σ) → Prop
  | .again x => Q x.2
  | .leave r => ∀ g, r = some g → Q g

theorem Moves.also {σ : Type} {P Q : σ → Prop} {record : List UInt8} {p : Nat} {t : Turn (Nat × σ) (Option σ)}
    (h : Moves P record p t) (hQ : TurnGives Q t) : Moves (fun f => P f ∧ Q f) record p t := by
  cases t with
  | again x => exact ⟨h.1, h.2.1, h.2.2, hQ⟩
  | leave r =>
    obtain ⟨g, rfl, hg⟩ := h
    exact ⟨g, rfl, hg, hQ g rfl⟩

/-- A table of keys that keeps the fields right when what it copies is a string of eight characters at most. -/
def StoresShort {σ : Type} (Q : σ → Prop) (store : UInt8 → (List UInt8 → Option (List UInt8)) → σ → Option σ) : Prop :=
  ∀ key copy f f', (∀ field v, 8 < field.length → copy field = some v → Short 8 field.length v) → Q f →
    store key copy f = some f' → Q f'

theorem nameTurn_gives {σ : Type} {Q : σ → Prop} {store : UInt8 → (List UInt8 → Option (List UInt8)) → σ → Option σ}
    (hstore : StoresShort Q store) (record : List UInt8) (p : Nat) (f : σ) (h : Q f) :
    TurnGives Q (nameTurn record store (p, f)) := by
  have hleave : TurnGives Q (.leave (some f)) := by
    intro g hg
    cases hg
    exact h
  unfold nameTurn
  dsimp only
  split
  · cases textAt record p with
    | none => exact fun g hg => nomatch hg
    | some t =>
      dsimp only
      split_ifs with hend hpast
      · exact hleave
      · exact hleave
      · have hcopy : ∀ field v, 8 < field.length → copy record (p + 3) (min (low7 t.len) 8) field = some v →
            Short 8 field.length v := by
          intro field v hfield hv
          obtain ⟨v', hv', hshort⟩ := copy_short (f := field) (not_lt.mp hpast) (by omega)
          rw [← Option.some.inj (hv'.symm.trans hv)]
          exact hshort.mono (Nat.min_le_right _ _)
        cases hf' : store t.key (copy record (p + 3) (min (low7 t.len) 8)) f with
        | none => exact fun g hg => nomatch hg
        | some f' =>
          cases hop record low7 t.count.toNat (p + 2) with
          | none => exact fun g hg => nomatch hg
          | some q => exact hstore _ _ _ _ hcopy h hf'
  · exact hleave

/-- Both names are short. -/
structure Job.Fits (f : Job) : Prop where
  jobname : Short 8 12 f.jobname
  userid : Short 8 12 f.userid

/-- The names that are used are short. -/
structure Exec.Fits (f : Exec) : Prop where
  stepname : Short 8 12 f.stepname
  program : Short 8 12 f.program

structure DD.Fits (f : DD) : Prop where
  ddname : Short 8 12 f.ddname
  dsname : Short 44 56 f.dsname
  sysout : Short 4 8 f.sysout

theorem storeJob_short : StoresShort Job.Fits storeJob := by
  intro key copy f f' hcopy h hf'
  unfold storeJob at hf'
  split_ifs at hf'
  · obtain ⟨v, hv, rfl⟩ := Option.map_eq_some_iff.mp hf'
    have hshort := hcopy f.userid v (by rw [h.userid.length]; decide) hv
    rw [h.userid.length] at hshort
    exact ⟨h.jobname, hshort⟩
  · obtain ⟨v, hv, rfl⟩ := Option.map_eq_some_iff.mp hf'
    have hshort := hcopy f.jobname v (by rw [h.jobname.length]; decide) hv
    rw [h.jobname.length] at hshort
    exact ⟨hshort, h.userid⟩
  · rw [← Option.some.inj hf']
    exact h

theorem storeExec_short : StoresShort Exec.Fits storeExec := by
  intro key copy f f' hcopy h hf'
  unfold storeExec at hf'
  split_ifs at hf'
  · obtain ⟨v, hv, rfl⟩ := Option.map_eq_some_iff.mp hf'
    have hshort := hcopy f.program v (by rw [h.program.length]; decide) hv
    rw [h.program.length] at hshort
    exact ⟨h.stepname, hshort⟩
  · obtain ⟨c, hc, hf'⟩ := Option.bind_eq_some_iff.mp hf'
    obtain ⟨v, hv, hf'⟩ := Option.bind_eq_some_iff.mp hf'
    obtain ⟨c', hc', hshort⟩ := clear_short (f := f.program) (by rw [h.program.length]; decide)
    rw [h.program.length] at hshort
    rw [← Option.some.inj hf', ← Option.some.inj (hc'.symm.trans hc)]
    exact ⟨h.stepname, hshort.mono (Nat.zero_le 8)⟩
  · obtain ⟨v, hv, rfl⟩ := Option.map_eq_some_iff.mp hf'
    have hshort := hcopy f.stepname v (by rw [h.stepname.length]; decide) hv
    rw [h.stepname.length] at hshort
    exact ⟨hshort, h.program⟩
  · rw [← Option.some.inj hf']
    exact h

/-- A value of a DD statement that is copied is short; one that is left out leaves what was there. -/
theorem copyWithin_short {record : List UInt8} {data len : Nat} {v : List UInt8} (hf : Short n size f) (hlen : len ≤ n)
    (hsize : n < size) (hv : copyWithin record data len f = some v) : Short n size v := by
  unfold copyWithin at hv
  split_ifs at hv with hpast
  · rw [← Option.some.inj hv]
    exact hf
  · obtain ⟨v', hv', hshort⟩ := copy_short (f := f) (not_lt.mp hpast) (by rw [hf.length]; omega)
    rw [hf.length] at hshort
    rw [← Option.some.inj (hv'.symm.trans hv)]
    exact hshort.mono hlen

theorem next_gives {Q : DD → Prop} {record : List UInt8} {t : Text} {p : Nat} {f : Option DD}
    (h : ∀ g, f = some g → Q g) : TurnGives Q (next record t p f) := by
  unfold next
  cases f with
  | none => exact fun g hg => nomatch hg
  | some g =>
    cases hop record UInt8.toNat t.count.toNat (p + 2) with
    | none => exact fun g hg => nomatch hg
    | some q => exact h g rfl

theorem ddTurn_gives (record : List UInt8) (p : Nat) (f : DD) (h : f.Fits) :
    TurnGives DD.Fits (ddTurn record (p, f)) := by
  have hleave : TurnGives DD.Fits (.leave (some f)) := by
    intro g hg
    cases hg
    exact h
  have hdsname (t : Text) (p data len : Nat) : TurnGives DD.Fits (next record t p
      ((copyWithin record data (min len 44) f.dsname).map fun v => {f with dsname := v})) := by
    refine next_gives fun g hg => ?_
    obtain ⟨v, hv, rfl⟩ := Option.map_eq_some_iff.mp hg
    exact ⟨h.ddname, copyWithin_short h.dsname (Nat.min_le_right _ _) (by decide) hv, h.sysout⟩
  unfold ddTurn
  dsimp only
  split
  · cases textAt record p with
    | none => exact fun g hg => nomatch hg
    | some t =>
      dsimp only
      split_ifs
      · exact hleave
      · refine next_gives fun g hg => ?_
        obtain ⟨v, hv, rfl⟩ := Option.map_eq_some_iff.mp hg
        exact ⟨copyWithin_short h.ddname (Nat.min_le_right _ _) (by decide) hv, h.dsname, h.sysout⟩
      · exact hleave
      · cases textAt record (p + 1) with
        | none => exact fun g hg => nomatch hg
        | some t => exact hdsname t (p + 1) (p + 1 + 3) t.len.toNat
      · exact hdsname t p (p + 3) t.len.toNat
      · refine next_gives fun g hg => ?_
        obtain ⟨v, hv, rfl⟩ := Option.map_eq_some_iff.mp hg
        exact ⟨h.ddname, h.dsname, copyWithin_short h.sysout (Nat.min_le_right _ _) (by decide) hv⟩
      · refine next_gives fun g hg => ?_
        cases hg
        exact ⟨h.ddname, h.dsname, h.sysout⟩
      · exact h
      · cases run (fun _ => none) (quantityTurn record) (record.length + 1) (p + 1) with
        | none => exact fun g hg => nomatch hg
        | some q => exact h
      · refine next_gives fun g hg => ?_
        cases hg
        exact h
  · exact hleave

/-! ### The statements -/

theorem processJob_fits (record : List UInt8) {f : Job} (h : f.Fits) : ∃ f', processJob record f = some f' ∧ f'.Fits := by
  obtain ⟨j, hj, hjobname⟩ := clear_short (f := f.jobname) (by rw [h.jobname.length]; decide)
  obtain ⟨u, hu, huserid⟩ := clear_short (f := f.userid) (by rw [h.userid.length]; decide)
  rw [h.jobname.length] at hjobname
  rw [h.userid.length] at huserid
  have hturn (p : Nat) (g : Job) (hg : Job.Right g ∧ g.Fits) :
      Moves (fun g => Job.Right g ∧ g.Fits) record p (nameTurn record storeJob (p, g)) :=
    (nameTurn_moves storeJob_stores record p g hg.1).also (nameTurn_gives storeJob_short record p g hg.2)
  obtain ⟨f', hf', -, hfits⟩ := walk_spec hturn 6 (f := ⟨j, u⟩) ⟨⟨hjobname.terminated, huserid.terminated⟩, hjobname.mono (Nat.zero_le 8),
      huserid.mono (Nat.zero_le 8)⟩
  refine ⟨f', ?_, hfits⟩
  rw [processJob, hj, hu]
  exact hf'

theorem processExec_fits (record : List UInt8) (stepname procname : Field 12) {program : List UInt8}
    (h : Short 8 12 program) : ∃ f', processExec record ⟨stepname.1, procname.1, program⟩ = some f' ∧ f'.Fits := by
  obtain ⟨s, hs, hstepname⟩ := clear_short (f := stepname.1) (by rw [stepname.2]; decide)
  rw [stepname.2] at hstepname
  have hturn (p : Nat) (g : Exec) (hg : Exec.Right procname ⟨program, h.length⟩ g ∧ g.Fits) :
      Moves (fun g => Exec.Right procname ⟨program, h.length⟩ g ∧ g.Fits) record p (nameTurn record storeExec (p, g)) :=
    (nameTurn_moves (storeExec_stores _ _) record p g hg.1).also (nameTurn_gives storeExec_short record p g hg.2)
  obtain ⟨f', hf', -, hfits⟩ := walk_spec hturn 4 (f := ⟨s, procname.1, program⟩)
    ⟨⟨hstepname.terminated, .inl rfl, .inl rfl⟩, hstepname.mono (Nat.zero_le 8), h⟩
  refine ⟨f', ?_, hfits⟩
  rw [processExec, hs]
  exact hf'

theorem processDD_fits (record : List UInt8) {f : DD} (h : f.Fits) : ∃ f', processDD record f = some f' ∧ f'.Fits := by
  obtain ⟨d, hd, hdsname⟩ := clear_short (f := f.dsname) (by rw [h.dsname.length]; decide)
  obtain ⟨s, hs, hsysout⟩ := clear_short (f := f.sysout) (by rw [h.sysout.length]; decide)
  rw [h.dsname.length] at hdsname
  rw [h.sysout.length] at hsysout
  have hturn (p : Nat) (g : DD) (hg : DD.Right ⟨f.ddname, h.ddname.length⟩ g ∧ g.Fits) :
      Moves (fun g => DD.Right ⟨f.ddname, h.ddname.length⟩ g ∧ g.Fits) record p (ddTurn record (p, g)) :=
    (ddTurn_moves _ record p g hg.1).also (ddTurn_gives record p g hg.2)
  obtain ⟨f', hf', -, hfits⟩ := walk_spec hturn 4 (f := ⟨f.ddname, d, s, 0⟩)
    ⟨⟨.inl rfl, hdsname.terminated, hsysout.terminated⟩, h.ddname, hdsname.mono (Nat.zero_le 44),
      hsysout.mono (Nat.zero_le 4)⟩
  refine ⟨f', ?_, hfits⟩
  rw [processDD, hd, hs]
  exact hf'

end Libc370.Jesjob
