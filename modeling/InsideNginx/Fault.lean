import Mathlib

/-! Where a call of the C code can leave the defined behaviour, or not return. -/
namespace InsideNginx

/-- What a call can run into where C leaves the behaviour undefined, and the end of the fuel of
a loop. -/
inductive Fault
  | nullDeref
  | outOfBounds
  | divByZero
  | noReturn
  deriving DecidableEq, Repr

/-- Read a pointer or an entry that has to be there. -/
def orFault {α : Type} (fault : Fault) : Option α → Except Fault α
  | some a => .ok a
  | none => .error fault

theorem orFault_ok {α : Type} {fault : Fault} {o : Option α} {a : α} (h : orFault fault o = .ok a) :
    o = some a := by
  cases o with
  | none => cases h
  | some b => exact congrArg some (Except.ok.inj h)

theorem toOption_ok {α : Type} {v : Except Fault α} {a : α} (h : v.toOption = some a) : v = .ok a := by
  cases v with
  | error e => cases h
  | ok b => exact congrArg Except.ok (Option.some.inj h)

/-- A call that returns has passed each of its steps. -/
theorem bind_ok {α β : Type} {v : Except Fault α} {k : α → Except Fault β} {z : β}
    (h : v >>= k = .ok z) : ∃ w, v = .ok w ∧ k w = .ok z := by
  cases v with
  | error e => cases h
  | ok w => exact ⟨w,rfl,h⟩

end InsideNginx
