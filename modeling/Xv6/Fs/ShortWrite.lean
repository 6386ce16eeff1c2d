import Xv6.Fs.Access
import Xv6.Fs.Files

/-!
# Writes that stop because of the source

When `either_copyin` fails `writei` leaves the loop without `log_write`. The bytes before the one that is not
mapped are then in the buffer, outside of what is reported. This is a fault exactly if one of them differs
from the byte that was there, in a block that the file had before, and the byte is in the file or the block
is not in the transaction. A block that the call has allocated is logged by `balloc`, and the bytes left
in it are behind the end of the file.
-/

namespace Xv6

open Function

namespace Block

end Block

namespace Fs

open Wp

variable {sb : Superblock} {D : Nat → Prop} {s t : Fs} {ip : Ptr} {src : Nat → Option UInt8} {off n tot : Nat}

theorem StopsAt.outside (h : StopsAt off n tot) (hlt : tot < n) {o : Nat} (ho : o / BSIZE = (off + tot) / BSIZE) :
    o < off ∨ off + tot ≤ o := by
  unfold StopsAt at h
  unfold BSIZE at *
  omega

section

variable (hw : Written sb D ip src (leftover src off tot (chunk off n tot)) off tot s t)
  (hlog : WriteLog sb ip off n tot s t)
  (hext : Extends sb (s.itable ip).inum off tot (off + min (tot + 1) n) s.store t.store)
  (hstop : StopsAt off n tot) (halloc : s.store.Alloc sb (s.itable ip).inum)
  (hclean : s.store.dinode (s.itable ip).inum = (s.itable ip).copy)

end

end Fs

end Xv6
