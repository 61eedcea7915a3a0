import Mathlib.Algebra.BigOperators.Group.Finset.Piecewise
import Mathlib.Data.Fintype.Basic

/-!
# Interleavings of several sequences

A schedule is a list of items tagged with the party they belong to.  It is an
interleaving of given sequences when each party's items, in the order of the
schedule, are that party's sequence.
-/

namespace RunPerf.Lib

variable {Party Item : Type*} [DecidableEq Party]

/-- The items of one party, in the order of the schedule. -/
def itemsOf (party : Party) (schedule : List (Party × Item)) : List Item :=
  (schedule.filter fun entry => entry.1 = party).map Prod.snd

/-- `schedule` interleaves the sequences `parts`, keeping each in its own order. -/
def IsInterleaving (parts : Party → List Item) (schedule : List (Party × Item)) : Prop :=
  ∀ party, itemsOf party schedule = parts party

@[simp] theorem itemsOf_nil (party : Party) :
    itemsOf party ([] : List (Party × Item)) = [] := rfl

theorem itemsOf_cons (party : Party) (entry : Party × Item) (rest : List (Party × Item)) :
    itemsOf party (entry :: rest) =
      if entry.1 = party then entry.2 :: itemsOf party rest else itemsOf party rest := by
  unfold itemsOf
  by_cases h : entry.1 = party <;> simp [h]

@[simp] theorem itemsOf_append (party : Party) (first second : List (Party × Item)) :
    itemsOf party (first ++ second) = itemsOf party first ++ itemsOf party second := by
  simp [itemsOf]

@[simp] theorem itemsOf_map_mk (party other : Party) (items : List Item) :
    itemsOf party (items.map (Prod.mk other)) = if other = party then items else [] := by
  unfold itemsOf
  by_cases h : other = party <;> simp [h, List.filter_map, Function.comp_def]

/-- The items of one party, if the schedule is made from a list. -/
theorem itemsOf_map {α : Type*} (party : Party) (who : α → Party) (what : α → Item)
    (list : List α) :
    itemsOf party (list.map fun x => (who x, what x)) =
      (list.filter fun x => who x = party).map what := by
  simp [itemsOf, List.filter_map, Function.comp_def]

/-- If a single party has items, there is one order. -/
theorem isInterleaving_single {parts : Party → List Item} (party : Party)
    (h : ∀ other, other ≠ party → parts other = []) :
    IsInterleaving parts ((parts party).map (Prod.mk party)) := by
  intro other
  rw [itemsOf_map_mk]
  split
  · rename_i hsame
    rw [hsame]
  · rename_i hother
    exact (h other (Ne.symm hother)).symm

/-- What holds between neighbours in each party's own sequence holds between neighbours
of the schedule that belong to one party. -/
theorem isChain_of_itemsOf {R : Item → Item → Prop} {schedule : List (Party × Item)}
    (h : ∀ party, (itemsOf party schedule).IsChain R) :
    schedule.IsChain fun x y => x.1 = y.1 → R x.2 y.2 := by
  induction schedule with
  | nil => exact .nil
  | cons x rest ih =>
      have hrest : ∀ party, (itemsOf party rest).IsChain R := by
        intro party
        have hparty := h party
        rw [itemsOf_cons] at hparty
        split at hparty
        · exact hparty.tail
        · exact hparty
      cases rest with
      | nil => exact .singleton x
      | cons y rest =>
          refine List.isChain_cons_cons.mpr ⟨?_, ih hrest⟩
          intro hsame
          have hparty := h x.1
          rw [itemsOf_cons, if_pos rfl, itemsOf_cons, if_pos hsame.symm] at hparty
          exact (List.isChain_cons_cons.mp hparty).1

/-- A sum over a schedule is the sum of the sums over the parties that take part in it. -/
theorem sum_itemsOf_of_mem {M : Type*} [AddCommMonoid M] (f : Item → M) (parties : Finset Party)
    (schedule : List (Party × Item)) (hmem : ∀ entry ∈ schedule, entry.1 ∈ parties) :
    (schedule.map fun entry => f entry.2).sum =
      ∑ party ∈ parties, ((itemsOf party schedule).map f).sum := by
  induction schedule with
  | nil => simp
  | cons entry rest ih =>
      have hterm : ∀ party, ((itemsOf party (entry :: rest)).map f).sum =
          (if entry.1 = party then f entry.2 else 0) + ((itemsOf party rest).map f).sum := by
        intro party
        rw [itemsOf_cons]
        split <;> simp
      have hfirst : entry.1 ∈ parties := hmem entry List.mem_cons_self
      simp only [hterm, Finset.sum_add_distrib, Finset.sum_ite_eq, if_pos hfirst,
        List.map_cons, List.sum_cons, ih fun e he => hmem e (List.mem_cons_of_mem _ he)]

/-- The order in which the parties run does not matter to a sum over the schedule. -/
theorem sum_itemsOf [Fintype Party] {M : Type*} [AddCommMonoid M] (f : Item → M)
    (schedule : List (Party × Item)) :
    (schedule.map fun entry => f entry.2).sum =
      ∑ party, ((itemsOf party schedule).map f).sum :=
  sum_itemsOf_of_mem f Finset.univ schedule fun _ _ => Finset.mem_univ _

end RunPerf.Lib
