import Mathlib

/-! The machine word of the interpreter. Heap objects are named by their address;
what lies behind an address belongs to the modules that use it. -/

namespace Chaaya

/-- `ChValue`: an immediate, or a pointer to a heap object. -/
inductive Value
  | undefined
  | void
  | nil
  | eof
  | bool (b : Bool)
  | fixnum (i : Int)
  | pointer (addr : Nat)
deriving DecidableEq, Repr

namespace Value

instance : Inhabited Value := ⟨undefined⟩

/-- `ch_is_true_value`: everything but `#f`. -/
def isTrue : Value → Bool
  | bool false => false
  | _ => true

end Value

end Chaaya

/-! Interned symbols. A symbol that a macro expansion has renamed carries the stamp in its
name: `__hyg_7_x` is the name `x` under the stamp `7`. -/

namespace Chaaya

structure Symbol where
  stamps : List String
  name : String
deriving DecidableEq, Repr

namespace Symbol

/-- The symbol a program writes. -/
def plain (name : String) : Symbol := ⟨[], name⟩

/-- `ch_symbol_basename`: the name without its outermost stamp. -/
def basename (s : Symbol) : Symbol := ⟨s.stamps.tail, s.name⟩

end Symbol

end Chaaya
