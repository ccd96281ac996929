import MiniOs.Proofs.Frame
import MiniOs.Proofs.Listings

/-!
# Calls that fail

`minifs_mkdir` and `minifs_unlink` check everything they can fail on before anybody can
see what they do. A name that cannot be added leaves a record behind under a number that
is free again, which no path leads to; and the name an unlink has looked up is found a
second time, since a directory with an entry for itself is not empty and is not removed.

`minifs_open` does its work first. It makes the file or truncates it, and then asks for an
open file and a descriptor. When there is none, -1 is returned for a file that is new or
empty now (`Spoils`).
-/

namespace MiniOs.Spec.Volume

open MiniOs.Lib MiniOs.Fs Function

section Listing

variable {V W : Volume} {n : Nat}

end Listing

end MiniOs.Spec.Volume

namespace MiniOs.Fs

open MiniOs.Lib MiniOs.Spec MiniOs.Tools Function

/-- Nothing in use looks different. -/
def Quiet (s s' : FsSt) : Prop := ∀ n, s.volume.ibit n = true → Unmoved s s' n

theorem unmoved_withBuffer (s : FsSt) (b : Region) (n : Nat) :
    Unmoved s (s.withBuffer b) n ∧ Unmoved (s.withBuffer b) s n :=
  ⟨.of_same ⟨rfl, rfl⟩, .of_same ⟨rfl, rfl⟩⟩

variable {s s' : FsSt}

theorem Quiet.of_buffer {b : Region} (h : Quiet (s.withBuffer b) s') : Quiet s s' :=
  fun n hn => (unmoved_withBuffer s b n).1.trans (h n hn)

theorem Quiet.of_volume (h : s'.volume = s.volume) : Quiet s s' := fun _ _ =>
  .of_same (h ▸ ⟨rfl, rfl⟩)

/-! ## Creating -/

section Create

variable {s s' : FsSt} {parent mode k : Nat} {name : List UInt8}

end Create

/-! ## Opening -/

section Open

variable {s : FsSt} (h : s.Sound)

include h

variable {cwd : Nat} {path : Option CStr} {flags : BitVec 32}

end Open

end MiniOs.Fs
