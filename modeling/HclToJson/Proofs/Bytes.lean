import HclToJson.Bytes

namespace HclToJson

/-- What is checked of the members of a list one by one holds of each of them. -/
theorem forall_mem_of_all {α : Type} {p : α → Prop} [DecidablePred p] {members : List α}
    (h : members.all (p ·) = true) : ∀ member ∈ members, p member :=
  fun member hmember => of_decide_eq_true (List.all_eq_true.mp h member hmember)

namespace Byte

/-- What holds of the numbers of all bytes holds of all bytes; it can be decided. -/
theorem forall_of_lt {p : UInt8 → Prop} (h : ∀ n < 256, p (UInt8.ofNat n)) (b : UInt8) : p b := by
  have hb := h b.toNat b.toNat_lt
  rwa [UInt8.ofNat_toNat] at hb

end Byte

end HclToJson
