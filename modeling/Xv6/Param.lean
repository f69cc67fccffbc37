import Mathlib.Data.Nat.Notation

/-!
# The parameters of the file system

The constants of `param.h` and `fs.h` that more than one part of the kernel uses.
-/

namespace Xv6

def maxopblocks : Nat := 10

def logsize : Nat := maxopblocks * 3

def bsize : Nat := 1024
def ndirect : Nat := 12
def nindirect : Nat := bsize / 4
def maxfile : Nat := ndirect + nindirect

def dirsiz : Nat := 14

/-- `sizeof(struct dirent)`. -/
def direntSize : Nat := 2 + dirsiz

end Xv6
