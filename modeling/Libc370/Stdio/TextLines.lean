import Libc370.Stdio.Delivery
import Libc370.Stdio.Output

/-! What a text stream wrote, read again.

The lines of the bytes given to the stream, cut at the record capacity, are the
records of the data set; a reader gets each of them back with its padding and one
newline, and is at the writer's position at every record boundary. Two things are
not as in the text written: a flush in the middle of a line ends the record there,
and an empty line on RECFM=U is a record of one blank. -/
namespace Libc370.Stdio

variable {a : Attr}

/-- A run of calls on a fresh stream whose writes all go well feeds it the bytes. -/
theorem writeCalls_fed {fp : File} {bin : Bool} (hopen : Filling a bin [] fp) (herr : fp.error = false)
    (hrcs : fp.dcb.rcs = []) (calls : List WriteCall) :
    Fed a bin (calls.flatMap (WriteCall.tokens bin)) [] fp (Machine.final writeCall fp calls) := by
  have hstep : ∀ (is : List WriteCall) (_ : List Int) (g : File) (call : WriteCall),
      Fed a bin (is.flatMap (WriteCall.tokens bin)) [] fp g →
        Fed a bin ((is ++ [call]).flatMap (WriteCall.tokens bin)) [] fp (writeCall g call).2 := by
    intro is _ g call h
    rw [List.flatMap_append, List.flatMap_singleton]
    rcases h.filling.writeCall_cases h.error call with ⟨-, hfed⟩ | ⟨-, rc, hbroke, -⟩
    · exact h.append hfed
    · -- nothing is scheduled to fail
      exact absurd (hrcs ▸ h.handed.rcs.subset hbroke.scheduled) List.not_mem_nil
  exact Machine.history_invariant (fun is _ g => Fed a bin (is.flatMap (WriteCall.tokens bin)) [] fp g)
    hstep (.nil hopen herr) calls

end Libc370.Stdio
