import Mathlib.Logic.Function.Basic

/- A growable array: a length and a total reading function. Only the checked
   read and write below look at an index, and both report one outside the length. -/
namespace Vectors

structure Vec (α : Type) where
  size : Nat
  get : Nat → α

namespace Vec
variable {α ε : Type}

def empty (fill : α) : Vec α := ⟨0, fun _ => fill⟩

def read (v : Vec α) (fault : ε) (i : Nat) : Except ε α :=
  if i < v.size then .ok (v.get i) else .error fault

def set (v : Vec α) (i : Nat) (a : α) : Vec α :=
  { v with get := Function.update v.get i a }

def write (v : Vec α) (fault : ε) (i : Nat) (a : α) : Except ε (Vec α) :=
  if i < v.size then .ok (v.set i a) else .error fault

@[simp] theorem size_set (v : Vec α) (i : Nat) (a : α) : (v.set i a).size = v.size := rfl

@[simp] theorem get_set_self (v : Vec α) (i : Nat) (a : α) : (v.set i a).get i = a := by
  simp [set]

theorem get_set_of_ne (v : Vec α) {i j : Nat} (a : α) (ne : j ≠ i) :
    (v.set i a).get j = v.get j := by
  simp [set, Function.update_of_ne ne]

theorem get_set (v : Vec α) (i j : Nat) (a : α) :
    (v.set i a).get j = if j = i then a else v.get j := by
  simp [set, Function.update_apply]

theorem read_ok {v : Vec α} {i : Nat} (h : i < v.size) (fault : ε) :
    v.read fault i = .ok (v.get i) := by
  simp [read, h]

theorem write_ok {v : Vec α} {i : Nat} (h : i < v.size) (fault : ε) (a : α) :
    v.write fault i a = .ok (v.set i a) := by
  simp [write, h]

theorem size_write {v v' : Vec α} {fault : ε} {i : Nat} {a : α}
    (run : v.write fault i a = .ok v') : v'.size = v.size := by
  unfold write at run
  split at run
  · cases run
    rfl
  · cases run

end Vec
end Vectors
