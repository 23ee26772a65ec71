import Mathlib.Data.BitVec
import Mathlib.Data.List.Basic

/-! The size classes of `memory_pool.c`: the table of sizes, the stride of a class and the lookup
from a requested size. -/
namespace Xplatbase.Memory

def memopSpanSize : ℕ := 65536
def memopSpanHeader : ℕ := 64
def memopMaxSmall : ℕ := 16384
def memopClassCount : ℕ := 36

def memClassSizes : List (BitVec 32) :=
  [16, 32, 48, 64, 80, 96, 112, 128, 160, 192, 224, 256, 320, 384, 448, 512,
    640, 768, 896, 1024, 1280, 1536, 1792, 2048, 2560, 3072, 3584, 4096,
    5120, 6144, 7168, 8192, 10240, 12288, 14336, 16384]

def memopAlignUp (v a : BitVec 32) : BitVec 32 := (v + a - 1) &&& ~~~(a - 1)

/-- `g_class_stride`, as `memop_build_size2class` fills it. -/
def classStride (classId : ℕ) : BitVec 32 := memopAlignUp (memClassSizes.getD classId 0) 16

/-- `block_count` of a span of a class. -/
def spanBlockCount (classId : ℕ) : ℕ :=
  (memopSpanSize - memopSpanHeader) / (classStride classId).toNat

/-- An entry of `g_size2class`, as `memop_build_size2class` fills it. -/
def size2class (idx : ℕ) : ℕ :=
  memClassSizes.findIdx fun v => !decide (v < BitVec.ofNat 32 ((idx + 1) * 8))

def memopClassIndex (size : BitVec 64) : Option ℕ :=
  if size = 0 ∨ BitVec.ofNat 64 memopMaxSmall < size then none
  else some (size2class ((size - 1) >>> 3).toNat)

end Xplatbase.Memory
