import Chaaya.Marking
import Chaaya.Value

/-! The generational collector of `gc.c`. An address is given out once; it holds `none`
before that and from the moment its object is freed. Every step that would follow a
reference to such an address has no result. -/

namespace Chaaya.Gc

open Chaaya.Marking

inductive Generation
  | young | old
deriving DecidableEq, Repr

/-- The references in an object: those that both marking and `references_young` look at,
and those that only marking follows (of a fiber or a continuation). An ephemeron has
neither. -/
inductive Content
  | plain (watched unwatched : List Value)
  | ephemeron (key value : Value) (broken : Bool)
deriving DecidableEq, Repr

structure Obj where
  generation : Generation
  age : Nat
  content : Content
deriving DecidableEq, Repr

/-- `ChGC`. `vmRoots` are the values that the VM, the libraries, the callbacks and the
functions being compiled hold; `symbols` is the intern table. -/
structure Collector where
  heap : Nat → Option Obj
  next : Nat
  young : List Nat
  old : List Nat
  marked : List Nat
  remembered : List Nat
  vmRoots : List Value
  roots : List Value
  extraRoots : List Value
  symbols : List Nat
  promotionAge : Nat

def pointers (vs : List Value) : List Nat :=
  vs.filterMap fun v => match v with
    | .pointer a => some a
    | _ => none

def Content.watched : Content → List Value
  | plain watched _ => watched
  | ephemeron _ _ _ => []

/-- What `mark_object_contents` follows. -/
def Content.followed : Content → List Value
  | plain watched unwatched => watched ++ unwatched
  | ephemeron _ _ _ => []

/-- All references, weak ones too. -/
def Content.references : Content → List Value
  | plain watched unwatched => watched ++ unwatched
  | ephemeron key value _ => [key, value]

def isEphemeron : Option Obj → Bool
  | some ⟨_, _, .ephemeron _ _ _⟩ => true
  | _ => false

def successors (heap : Nat → Option Obj) (a : Nat) : Option (List Nat) :=
  (heap a).map fun o => pointers o.content.followed

/-- The marks, newest first, and the ephemerons waiting for their keys. -/
structure Tracing where
  marked : List Nat
  pending : List Nat

/-- The ephemerons among the new marks, in the order they were registered. -/
def registered (heap : Nat → Option Obj) (before after : List Nat) : List Nat :=
  ((after.take (after.length - before.length)).reverse).filter fun a => isEphemeron (heap a)

/-- `mark_value` on each of some references. -/
def markValues (s : Collector) (t : Tracing) (work : List Nat) : Option Tracing :=
  (markLoop (successors s.heap)
    (work.length + pending (successors s.heap) (s.young ++ s.old) t.marked + 1) work
    t.marked).map fun out => ⟨out, t.pending ++ registered s.heap t.marked out⟩

def Collector.rootAddresses (s : Collector) : List Nat :=
  pointers (s.vmRoots ++ s.roots ++ s.extraRoots) ++ s.symbols

def markRootsAndSymbols (s : Collector) : Option Tracing :=
  markValues s ⟨s.marked, []⟩ s.rootAddresses

/-- `mark_object_contents` on each entry of the remembered set. -/
def markRemembered (s : Collector) : List Nat → Tracing → Option Tracing
  | [], t => some t
  | a :: rest, t =>
    match s.heap a with
    | none => none
    | some o =>
      let t := if isEphemeron (some o) then { t with pending := t.pending ++ [a] } else t
      match markValues s t (pointers o.content.followed) with
      | none => none
      | some t => markRemembered s rest t

def weakReachable (s : Collector) (t : Tracing) : Value → Option Bool
  | .pointer a => (s.heap a).map fun _ => decide (a ∈ t.marked)
  | _ => some true

/-- The entry at `i` is overwritten with the last one. -/
def swapRemove (l : List Nat) (i : Nat) : List Nat :=
  (l.set i (l.getD (l.length - 1) 0)).dropLast

/-- One round of `process_weak_refs` over the pending ephemerons from `i`. -/
def weakPass (s : Collector) : Nat → Nat → Bool → Tracing → Option (Bool × Tracing)
  | 0, _, _, _ => none
  | fuel + 1, i, progress, t =>
    match t.pending[i]? with
    | none => some (progress, t)
    | some e => match s.heap e with
      | some ⟨_, _, .ephemeron key value _⟩ => match weakReachable s t key with
        | none => none
        | some false => weakPass s fuel (i + 1) progress t
        | some true => match markValues s t (pointers [key, value]) with
          | none => none
          | some t => weakPass s fuel i true { t with pending := swapRemove t.pending i }
      | _ => none

/-- A bound on the turns of a round, and on the rounds. -/
def weakFuel (s : Collector) (t : Tracing) : Nat :=
  t.pending.length + unmarked (s.young ++ s.old) t.marked + 1

def weakLoop (s : Collector) : Nat → Tracing → Option Tracing
  | 0, _ => none
  | fuel + 1, t => match weakPass s (weakFuel s t) 0 false t with
    | none => none
    | some (true, t) => weakLoop s fuel t
    | some (false, t) => some t

def breakEphemeron (heap : Nat → Option Obj) (e : Nat) : Nat → Option Obj :=
  Function.update heap e
    ((heap e).map fun o => { o with content := .ephemeron (.bool false) (.bool false) true })

/-- `process_weak_refs`; the ephemerons still pending lose key and value. -/
def processWeakRefs (s : Collector) (t : Tracing) : Option Collector :=
  (weakLoop s (weakFuel s t) t).map fun t =>
    { s with heap := t.pending.foldl breakEphemeron s.heap, marked := t.marked }

def referencesYoung (heap : Nat → Option Obj) : List Value → Option Bool
  | [] => some false
  | .pointer a :: vs => match heap a with
    | none => none
    | some o => if o.generation = .young then some true else referencesYoung heap vs
  | _ :: vs => referencesYoung heap vs

/-- `sweep_young_minor`: the objects that stay young, and the collector. -/
def sweepYoungMinor : List Nat → Collector → Option (List Nat × Collector)
  | [], s => some ([], s)
  | a :: rest, s => match s.heap a with
    | none => none
    | some o =>
      if a ∉ s.marked then sweepYoungMinor rest { s with heap := Function.update s.heap a none }
      else
        let age := (o.age + 1) % 256
        let s := { s with marked := s.marked.filter fun b => decide (b ≠ a) }
        if s.promotionAge ≤ age then
          let s := { s with
            heap := Function.update s.heap a (some { o with generation := .old, age := 0 })
            old := a :: s.old }
          match referencesYoung s.heap o.content.watched with
          | none => none
          | some true => sweepYoungMinor rest { s with remembered := s.remembered ++ [a] }
          | some false => sweepYoungMinor rest s
        else
          match sweepYoungMinor rest
            { s with heap := Function.update s.heap a (some { o with age := age }) } with
          | none => none
          | some (kept, s) => some (a :: kept, s)

def pruneRememberedSet (heap : Nat → Option Obj) : List Nat → Option (List Nat)
  | [] => some []
  | a :: rest => match heap a with
    | none => none
    | some o => match (if o.generation = .old then referencesYoung heap o.content.watched
        else some false), pruneRememberedSet heap rest with
      | some true, some kept => some (a :: kept)
      | some false, some kept => some kept
      | _, _ => none

/-- `sweep_list_major`: the objects that are kept, and the collector. -/
def sweepListMajor : List Nat → Collector → Option (List Nat × Collector)
  | [], s => some ([], s)
  | a :: rest, s => match s.heap a with
    | none => none
    | some _ =>
      if a ∉ s.marked then sweepListMajor rest { s with heap := Function.update s.heap a none }
      else
        match sweepListMajor rest
          { s with marked := s.marked.filter fun b => decide (b ≠ a) } with
        | none => none
        | some (kept, s) => some (a :: kept, s)

def clearMarks (list marked : List Nat) : List Nat := marked.filter fun a => decide (a ∉ list)

/-- `ch_gc_collect_minor`. -/
def collectMinor (s : Collector) : Option Collector := do
  let s := { s with marked := clearMarks s.old s.marked }
  let t ← markRootsAndSymbols s
  let t ← markRemembered s s.remembered t
  let s ← processWeakRefs s t
  let (kept, s) ← sweepYoungMinor s.young s
  let remembered ← pruneRememberedSet s.heap s.remembered
  some { s with
    young := kept
    remembered := remembered
    marked := clearMarks s.old s.marked }

/-- `ch_gc_collect_major`. -/
def collectMajor (s : Collector) : Option Collector := do
  let t ← markRootsAndSymbols s
  let s ← processWeakRefs s t
  let (young, s) ← sweepListMajor s.young s
  let (old, s) ← sweepListMajor s.old s
  some { s with young := young, old := old, remembered := [] }

def rememberedSetAdd (s : Collector) (a : Nat) : Collector :=
  { s with remembered := s.remembered ++ [a] }

/-- `ch_gc_write_barrier`. -/
def writeBarrier (s : Collector) (owner : Nat) (v : Value) : Option Collector :=
  match s.heap owner with
  | none => none
  | some o => match o.generation, v with
    | .old, .pointer child => match s.heap child with
      | none => none
      | some c => some (if c.generation = .young then rememberedSetAdd s owner else s)
    | _, _ => some s

/-- New contents for an object, one of the new references given to the barrier. -/
def store (s : Collector) (owner : Nat) (content : Content) (v : Value) : Option Collector :=
  match s.heap owner with
  | none => none
  | some o => writeBarrier
      { s with heap := Function.update s.heap owner (some { o with content := content }) } owner v

/-- `ch_gc_promote_to_old`. -/
def promoteToOld (s : Collector) (a : Nat) : Option Collector :=
  match s.heap a with
  | none => none
  | some o =>
    if o.generation = .young ∧ a ∈ s.young then
      let s := { s with
        young := s.young.erase a
        heap := Function.update s.heap a (some { o with generation := .old, age := 0 })
        old := a :: s.old }
      (referencesYoung s.heap o.content.watched).map fun young =>
        if young then rememberedSetAdd s a else s
    else some s

/-- `ch_gc_alloc` past its collections, with what the caller puts into the object. -/
def alloc (s : Collector) (content : Content) : Collector :=
  { s with
    heap := Function.update s.heap s.next (some ⟨.young, 0, content⟩)
    next := s.next + 1
    young := s.next :: s.young }

end Chaaya.Gc
