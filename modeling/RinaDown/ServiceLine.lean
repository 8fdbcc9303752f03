import Mathlib.Data.Int.NatAbs

/-!
# Service lines

Customers in the order of their arrival, of which the first ones are served.
Whatever an operation does to the split between the two, nobody who waits has
come before somebody who is served.
-/

namespace RinaDown.ServiceLine

universe u

variable {α : Type u}

structure Line (α : Type u) where
  served : List α
  waiting : List α
  deriving DecidableEq, Repr

namespace Line

def order (l : Line α) : List α := l.served ++ l.waiting

/-- A new customer is served at once if `room` says so. -/
def join (l : Line α) (room : Bool) (x : α) : Line α :=
  if room then ⟨l.served ++ [x],l.waiting⟩ else ⟨l.served,l.waiting ++ [x]⟩

def leave [DecidableEq α] (l : Line α) (x : α) : Line α :=
  ⟨l.served.filter (· ≠ x),l.waiting.filter (· ≠ x)⟩

@[simp] theorem order_mk (xs ys : List α) : (⟨xs,ys⟩ : Line α).order = xs ++ ys := rfl

theorem order_join {l : Line α} {room : Bool} {x : α} (h : room = true → l.waiting = []) :
    (l.join room x).order = l.order ++ [x] := by
  cases room with
  | false => simp [join, order]
  | true => simp [join, order, h rfl]

@[simp] theorem order_leave [DecidableEq α] (l : Line α) (x : α) :
    (l.leave x).order = l.order.filter (· ≠ x) := by
  simp [leave, order]

theorem served_before_waiting {l : Line α} {x y : α} (hx : x ∈ l.served) (hy : y ∈ l.waiting) :
    [x, y].Sublist l.order := by
  have hfirst : [x].Sublist l.served := List.singleton_sublist.mpr hx
  have hsecond : [y].Sublist l.waiting := List.singleton_sublist.mpr hy
  simpa [order] using hfirst.append hsecond

end Line

end RinaDown.ServiceLine
