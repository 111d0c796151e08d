/-
  RampRdma.Wire — the bytes of an item: `MSGPACK_DEFINE(key, values, ts, trx_keys)` packs
  an array of the members in order, a string as a str, a `raw_ref` as a bin, a map as a
  map, a set as an array and a timestamp as the array of its two numbers. It is a `Codec`
  (`Wire.msgpack`).
-/

import Mathlib
import RampRdma.Data
import RampRdma.Lib.Msgpack

namespace RampRdma.Wire

open Msgpack

theorem ofList_toList_map {V : Type} (m : Map String V) : Std.ExtTreeMap.ofList m.toList compare = m := by
  apply Std.ExtTreeMap.ext_getElem?
  intro k
  rcases hk : m[k]? with _ | v
  · have hm : ¬ k ∈ m := by rw [← Std.ExtTreeMap.isSome_getElem?_iff_mem, hk]; simp
    apply Std.ExtTreeMap.getElem?_ofList_of_contains_eq_false
    rw [Std.ExtTreeMap.map_fst_toList_eq_keys]
    simpa using hm
  · exact Std.ExtTreeMap.getElem?_ofList_of_mem (by simp) Std.ExtTreeMap.distinct_keys_toList
      (Std.ExtTreeMap.mem_toList_iff_getElem?_eq_some.mpr hk)

theorem ofList_toList_set (s : OrdSet String) : Std.ExtTreeSet.ofList s.toList compare = s := by
  apply Std.ExtTreeSet.ext_mem
  intro k
  rw [Std.ExtTreeSet.mem_ofList, List.contains_iff_mem, Std.ExtTreeSet.mem_toList]

def str : Format String :=
  transport (bytes strFamily) (·.toByteArray.data.toList) (fun bs => String.fromUTF8? ⟨bs.toArray⟩) fun s => by
    rw [Array.toArray_toList, String.fromUTF8?, dif_pos s.isValidUTF8]
    rfl

def bin : Format (List UInt8) := bytes binFamily

def map {V : Type} (f : Format V) : Format (Map String V) :=
  transport (many mapFamily (pair str f)) (·.toList) (fun l => some (.ofList l)) fun m => by rw [ofList_toList_map]

def set : Format (OrdSet String) :=
  transport (many arrayFamily str) (·.toList) (fun l => some (.ofList l)) fun s => by rw [ofList_toList_set]

def timestamp : Format Timestamp :=
  transport (record 2 (by decide) (pair int64 int64)) (fun t => (t.sec, t.usec)) (fun p => some ⟨p.1, p.2⟩) fun _ => rfl

def item : Format Item :=
  transport (record 4 (by decide) (pair str (pair (map bin) (pair timestamp set))))
    (fun i => (i.key, i.values, i.ts, i.trx_keys)) (fun p => some ⟨p.1, p.2.1, p.2.2.1, p.2.2.2⟩) fun _ => rfl

/-- `msgpack::pack`, and `unpack` with `convert`. -/
def msgpack : Codec where
  pack := item.pack
  unpack bs := (item.unpack bs).map Prod.fst
  unpack_pack i h := by
    have := item.unpack_pack i [] (by simp only [PACKET_SIZE] at h; omega)
    rw [List.append_nil] at this
    rw [this]
    rfl

example : msgpack.pack { key := "x", ts := ⟨1, 300⟩, trx_keys := {"x"} } =
    [0x94, 0xa1, 0x78, 0x80, 0x92, 0x01, 0xcd, 0x01, 0x2c, 0x91, 0xa1, 0x78] := by decide

/-! ## Where the values are -/

/-- What stands before the value of `f` in a packed item. -/
def before_value (i : Item) (f : Field) : List UInt8 :=
  arrayFamily.pack 4 ++ (str.pack i.key ++ (mapFamily.pack i.values.toList.length ++
    ((i.values.toList.takeWhile (·.1 ≠ f)).flatMap (pair str bin).pack ++
      (str.pack f ++ binFamily.pack (i.values[f]?.getD []).length))))

theorem takeWhile_key {l s t : List (Field × Value)} {f : Field} {v : Value} (hl : l = s ++ (f, v) :: t)
    (hd : (l.map Prod.fst).Nodup) : l.takeWhile (·.1 ≠ f) = s := by
  subst hl
  have hs : ∀ p ∈ s, decide (p.1 ≠ f) = true := by
    intro p hp
    rw [List.map_append, List.nodup_append] at hd
    have := hd.2.2 p.1 (List.mem_map_of_mem hp) f (by simp)
    simpa using this
  rw [List.takeWhile_append_of_pos hs]
  simp

theorem value_at {i : Item} {f : Field} {v : Value} (h : i.values[f]? = some v) :
    ∃ post, msgpack.pack i = before_value i f ++ (v ++ post) := by
  obtain ⟨s, t, hl⟩ := List.append_of_mem (Std.ExtTreeMap.mem_toList_iff_getElem?_eq_some.mpr h)
  have hd : (i.values.toList.map Prod.fst).Nodup := by
    rw [Std.ExtTreeMap.map_fst_toList_eq_keys]
    exact Std.ExtTreeMap.nodup_keys
  refine ⟨t.flatMap (pair str bin).pack ++ (timestamp.pack i.ts ++ set.pack i.trx_keys), ?_⟩
  have hi : msgpack.pack i = arrayFamily.pack 4 ++ (str.pack i.key ++ ((mapFamily.pack i.values.toList.length ++
      i.values.toList.flatMap (pair str bin).pack) ++ (timestamp.pack i.ts ++ set.pack i.trx_keys))) := rfl
  have hp : (pair str bin).pack (f, v) = str.pack f ++ (binFamily.pack v.length ++ v) := rfl
  rw [hi, before_value, takeWhile_key hl hd, h]
  simp [hl, List.flatMap_append, List.flatMap_cons, hp]

end RampRdma.Wire
