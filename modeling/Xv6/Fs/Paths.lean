import Xv6.Fs.Names

namespace Xv6
namespace Fs

open Foundation
open Buffer (Pid Stop)

/-!
# Path names

`skipelem` takes the elements of a path off one after another, and `namei`
looks them up one after another.  The lookups are those of the directories as
they are when the call begins, and the call leaves one reference more, to the
inode that it has found, and no lock.

From a working directory that was removed the lookups may come to an inode
that was freed.  It is no directory, but the call does not fail there:
`ilock` stops the kernel.  This happens exactly if a name but the last leads to
such an inode.
-/

/-! ## Elements -/

end Fs
end Xv6
