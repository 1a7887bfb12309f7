import HclToJson.Proofs.Entries
import HclToJson.Static

namespace HclToJson.Static

theorem toValue_int (value : Int64) (fits : FitsNumber value.toInt) :
    (Static.number (.int value.toInt fits)).toValue = .integer value := by
  have hlow := Int64.le_toInt value
  have hhigh := Int64.toInt_lt value
  have hint : Number.toInt64? (.int value.toInt fits) = some value := by
    rw [Number.toInt64?, if_pos ⟨by omega, by omega⟩, Int64.ofInt_toInt]
  rw [toValue, Number.toValue, hint, Value.number]

theorem keys_entriesToValues (entries : List (String × Static)) :
    Entries.keys (entriesToValues entries) = Entries.keys entries := by
  induction entries with
  | nil => rfl
  | cons entry rest ih =>
      obtain ⟨key, value⟩ := entry
      rw [entriesToValues, Entries.keys_cons, Entries.keys_cons, ih]

theorem entriesToValues_insert (entries : Entries Static) (key : String) (value : Static) :
    entriesToValues (entries.insert key value) =
      Entries.insert (entriesToValues entries) key value.toValue := by
  induction entries with
  | nil => rfl
  | cons entry rest ih =>
      obtain ⟨first, old⟩ := entry
      simp only [Entries.insert, entriesToValues]
      split
      · rfl
      · rw [entriesToValues, ih]

theorem entriesToValues_append (front back : List (String × Static)) :
    entriesToValues (front ++ back) = entriesToValues front ++ entriesToValues back := by
  induction front with
  | nil => rfl
  | cons entry rest ih =>
      rw [List.cons_append, entriesToValues, ih, entriesToValues, List.cons_append]

theorem entriesToValues_ofList (items : List (String × Static)) :
    entriesToValues (Entries.ofList items) = Entries.ofList (entriesToValues items) := by
  induction items using List.reverseRecOn with
  | nil => rfl
  | append_singleton items item ih =>
      obtain ⟨key, value⟩ := item
      rw [Entries.ofList_concat, entriesToValues_insert, ih, entriesToValues_append]
      exact (Entries.ofList_concat _ key value.toValue).symm

end HclToJson.Static
