import Mathlib.Data.List.GetD
import Mathlib.Data.List.OfFn
import Xplatbase.Lib.LittleEndian

/-! The record the copies of the library share, as the bytes of its file. -/
namespace Xplatbase.Instance
open Xplatbase.Lib

structure XplatInstanceRec where
  abi : UInt32
  identity : UInt64
  module : Fin 260 → UInt8

/-- `sizeof(XplatInstanceRec)`: the identity is aligned to 8 bytes, and so is the whole. -/
def recSize : ℕ := 280

def XplatInstanceRec.bytes (r : XplatInstanceRec) : List UInt8 :=
  leBytes 4 r.abi.toNat ++ List.replicate 4 0 ++ leBytes 8 r.identity.toNat ++
    List.ofFn r.module ++ List.replicate 4 0

/-- The record in the first bytes of a buffer, as long as all of them are there. -/
def readRec (b : List UInt8) : Option XplatInstanceRec :=
  if b.length < recSize then none
  else some
    { abi := UInt32.ofNat (ofLeBytes (b.take 4))
      identity := UInt64.ofNat (ofLeBytes ((b.drop 8).take 8))
      module := fun j => b.getD (16 + j) 0 }

@[simp] theorem length_bytes (r : XplatInstanceRec) :
    r.bytes.length = recSize := by
  simp only [XplatInstanceRec.bytes, recSize, List.length_append, length_leBytes,
    List.length_replicate, List.length_ofFn]

theorem readRec_bytes (r : XplatInstanceRec) :
    readRec r.bytes = some r := by
  have hfour : (leBytes 4 r.abi.toNat).length = 4 := length_leBytes _ _
  have height : (leBytes 4 r.abi.toNat ++ List.replicate 4 (0 : UInt8)).length = 8 := by
    rw [List.length_append, hfour, List.length_replicate]
  have hsixteen : (leBytes 4 r.abi.toNat ++ List.replicate 4 0 ++
      leBytes 8 r.identity.toNat).length = 16 := by
    rw [List.length_append, height, length_leBytes]
  have habi : r.bytes.take 4 = leBytes 4 r.abi.toNat := by
    simp only [XplatInstanceRec.bytes, List.append_assoc]
    exact List.take_left' hfour
  have hid : (r.bytes.drop 8).take 8 = leBytes 8 r.identity.toNat := by
    rw [XplatInstanceRec.bytes, List.append_assoc, List.append_assoc, List.drop_left' height]
    exact List.take_left' (length_leBytes _ _)
  have hmod : ∀ j : Fin 260, r.bytes.getD (16 + j) 0 = r.module j := by
    intro j
    have hj := j.isLt
    rw [XplatInstanceRec.bytes, List.append_assoc, List.getD_append_right _ _ _ _ (by omega),
      hsixteen, List.getD_append _ _ _ _ (by rw [List.length_ofFn]; omega),
      List.getD_eq_getElem _ _ (by rw [List.length_ofFn]; omega), List.getElem_ofFn]
    congr 1
    exact Fin.ext (by simp)
  rw [readRec, if_neg (by rw [length_bytes]; omega), habi, hid, ofLeBytes_uint32,
    ofLeBytes_uint64]
  simp only [hmod]

end Xplatbase.Instance
