import Jobyard.Document.Collection
import Jobyard.Proofs.Store.Paging

/-!
Slices of lists. What stands at each index of a slice fixes it; a slice of a slice is a slice, and
slices of one length that follow each other are the list.
-/

namespace Jobyard

variable {α : Type} (items : List α)

theorem getElem?_slice (first last i : Nat) :
    (slice first last items)[i]? = if first + i ≤ last then items[first + i]? else none := by
  unfold slice
  by_cases hreversed : last < first
  · rw [if_pos hreversed, if_neg (by omega), List.getElem?_nil]
  · rw [if_neg hreversed, List.getElem?_take, List.getElem?_drop]
    by_cases hwithin : first + i ≤ last
    · rw [if_pos (by omega), if_pos hwithin]
    · rw [if_neg (by omega), if_neg hwithin]

theorem slice_slice (first last next final : Nat) :
    slice next final (slice first last items) =
      slice (first + next) (min last (first + final)) items := by
  refine List.ext_getElem? fun i => ?_
  rw [getElem?_slice, getElem?_slice, getElem?_slice, ← Nat.add_assoc]
  by_cases hnext : next + i ≤ final
  · rw [if_pos hnext]
    by_cases hlast : first + next + i ≤ last
    · rw [if_pos hlast, if_pos (by omega)]
    · rw [if_neg hlast, if_neg (by omega)]
  · rw [if_neg hnext, if_neg (by omega)]

/-- A slice that is counted in numbers up to a limit. -/
def saturatedSlice (limit first last : Nat) (items : List α) : List α :=
  if last < first then [] else (items.drop first).take (min (last - first + 1) limit)

theorem saturatedSlice_eq {limit : Nat} (h : items.length ≤ limit) (first last : Nat) :
    saturatedSlice limit first last items = slice first last items := by
  have hall : (items.drop first).take limit = items.drop first :=
    List.take_of_length_le (by rw [List.length_drop]; omega)
  unfold saturatedSlice
  rw [← List.take_take, hall]
  rfl

theorem flatMap_slice {size : Nat} (hsize : 1 ≤ size) (pages : Nat) :
    (List.range pages).flatMap (fun page => slice (page * size) (page * size + size - 1) items) =
      items.take (pages * size) := by
  have hpage : ∀ page, slice (page * size) (page * size + size - 1) items =
      Query.slice (page * size) (some size) items := by
    intro page
    unfold slice
    rw [if_neg (by omega), show page * size + size - 1 - page * size + 1 = size from by omega]
    rfl
  rw [← Query.flatten_slices, ← List.flatMap_def]
  exact congrArg (List.range pages).flatMap (funext hpage)

end Jobyard
