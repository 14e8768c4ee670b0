import Klever.Lib.Memo

/-!
# Caches of interfaces

A collection of interfaces keeps results of lookups. Those of `resolve_interface` are kept under the text of a
declaration, whatever category was asked for, and neither additions nor deletions of interfaces clear the caches. So a
lookup may return what was found for another category or before a change.
-/

namespace Klever.Emg.InterfaceCache

open Klever.Lib Memo

/-- What is asked about types of declarations. -/
class CType (D : Type) where
  /-- `str` -/
  text : D → String
  /-- `==` -/
  eq : D → D → Bool
  /-- `void`, `void *` or a primitive type -/
  isPlain : D → Bool
  /-- of pointers only -/
  points : D → Option D
  takePointer : D → D
  /-- Nothing, or the fields of a structure with a type; arrays have none. -/
  contains : D → D → Option (List String)

open CType

structure Interface (D : Type) where
  category : String
  name : String
  declaration : Option D
  isContainer : Bool
  /-- `param_interfaces` of callbacks -/
  params : List String
  deriving DecidableEq

/-- `__str__` -/
def Interface.str {D : Type} (i : Interface D) : String := i.category ++ "." ++ i.name

structure Tables (D : Type) where
  interfaces : Dict String (Interface D)
  deleted : Dict String (Interface D)

/-- With all lookups so far for comparison, also those that `resolve_interface_weakly` makes. -/
structure InterfaceCollection (D : Type) extends Tables D where
  interfaceCache : Dict String (List (Interface D))
  /-- under texts and categories -/
  containersCache : Dict (String × String) (List (String × List String))
  log : List (Call String (Interface D))
  weakLog : List (Call String (Interface D))
  containersLog : List (Call (String × String) (String × List String))

variable {D : Type}

/-- The type to try next. -/
def other [CType D] (signature : D) : D := (points signature).getD (takePointer signature)

namespace Tables

variable (t : Tables D)

def setIntf (i : Interface D) : Tables D := { t with interfaces := t.interfaces.set i.str i }

/-- Nothing comes back for a `KeyError`. -/
def delIntf (identifier : String) : Option (Tables D) :=
  (t.interfaces.get? identifier).map fun i => ⟨t.interfaces.erase identifier, t.deleted.set identifier i⟩

/-- `get_or_restore_intf`; each level restores one interface, so the number of deleted ones is enough fuel. -/
def getOrRestoreIntf : (fuel : Nat) → Tables D → String → Option (Tables D)
  | 0, t, identifier => if (t.interfaces.get? identifier).isSome then some t else none
  | fuel + 1, t, identifier =>
    if (t.interfaces.get? identifier).isSome then some t
    else (t.deleted.get? identifier).bind fun i =>
      i.params.foldlM (getOrRestoreIntf fuel) ⟨t.interfaces.set identifier i, t.deleted.erase identifier⟩

/-- `not category or … == category` -/
def suits (category : Option String) (i : Interface D) : Bool := category.getD "" = "" || category = some i.category

variable [CType D] (signature : D) (category : Option String)

/-- `resolve_interface` without the cache -/
def findInterfaces : List (Interface D) :=
  if isPlain signature then []
  else t.interfaces.values.filter fun i =>
    i.declaration.any (fun d => eq d signature && !isPlain d) && suits category i

/-- `resolve_interface_weakly` without the cache -/
def findWeakly : List (Interface D) :=
  if (t.findInterfaces signature category).isEmpty then t.findInterfaces (other signature) category
  else t.findInterfaces signature category

/-- `__resolve_containers` -/
def findContainers : List (String × List String) :=
  (t.interfaces.values.filter fun i => i.isContainer && suits category i).filterMap fun i =>
    (i.declaration.bind (contains · signature)).map (i.str, ·)

end Tables

namespace InterfaceCollection

def empty : InterfaceCollection D := ⟨⟨.empty, .empty⟩, .empty, .empty, [], [], []⟩

variable [CType D] (c : InterfaceCollection D) (signature : D) (category : Option String) (useCache : Bool)

def resolveInterface : List (Interface D) × InterfaceCollection D :=
  let plain := c.findInterfaces signature category
  let (found, cache) := ask c.interfaceCache (text signature) useCache plain
  (found, { c with interfaceCache := cache, log := ⟨text signature, useCache, found, plain⟩ :: c.log })

def resolveInterfaceWeakly : List (Interface D) × InterfaceCollection D :=
  let first := c.resolveInterface signature category useCache
  let last := if first.1.isEmpty then first.2.resolveInterface (other signature) category useCache else first
  let call := ⟨text signature, useCache, last.1, c.findWeakly signature category⟩
  (last.1, { last.2 with weakLog := call :: c.weakLog })

def resolveContainers : List (String × List String) × InterfaceCollection D :=
  let key := (text signature, if category.getD "" = "" then "default" else category.getD "")
  let plain := c.findContainers signature category
  let (found, cache) := ask c.containersCache key true plain
  (found, { c with containersCache := cache, containersLog := ⟨key, true, found, plain⟩ :: c.containersLog })

end InterfaceCollection

inductive Step (D : Type) where
  | set (i : Interface D)
  | del (identifier : String)
  | restore (identifier : String)
  | interface (signature : D) (category : Option String) (useCache : Bool)
  | weakly (signature : D) (category : Option String) (useCache : Bool)
  | containers (declaration : D) (category : Option String)

namespace InterfaceCollection

variable [CType D]

def step (c : InterfaceCollection D) : Step D → Option (InterfaceCollection D)
  | .set i => some { c with toTables := c.setIntf i }
  | .del identifier => (c.delIntf identifier).map ({ c with toTables := · })
  | .restore identifier =>
    (Tables.getOrRestoreIntf c.deleted.keys.length c.toTables identifier).map ({ c with toTables := · })
  | .interface signature category useCache => some (c.resolveInterface signature category useCache).2
  | .weakly signature category useCache => some (c.resolveInterfaceWeakly signature category useCache).2
  | .containers declaration category => some (c.resolveContainers declaration category).2

/-- Each lookup that may use a cache has got what it gets without it. -/
def Right (c : InterfaceCollection D) : Prop :=
  (∀ call ∈ c.log, call.Right) ∧ (∀ call ∈ c.weakLog, call.Right) ∧ ∀ call ∈ c.containersLog, call.Right

structure Inv (c : InterfaceCollection D) : Prop where
  interfaces : Call.Logged c.log c.interfaceCache
  containers : Call.Logged c.containersLog c.containersCache
  /-- Weak lookups are right if those that they make are. -/
  weak : (∀ call ∈ c.log, call.Right) → ∀ call ∈ c.weakLog, call.Right

variable {c d : InterfaceCollection D} (signature : D) (category : Option String) (useCache : Bool)

theorem Inv.resolveInterface (inv : c.Inv) : (c.resolveInterface signature category useCache).2.Inv :=
  ⟨inv.interfaces.ask .., inv.containers, fun right => inv.weak (List.forall_mem_cons.mp right).2⟩

theorem Inv.resolveInterfaceWeakly (inv : c.Inv) : (c.resolveInterfaceWeakly signature category useCache).2.Inv := by
  have first := inv.resolveInterface signature category useCache
  have second := first.resolveInterface (other signature) category useCache
  unfold InterfaceCollection.resolveInterfaceWeakly
  dsimp only
  split
  next none =>
    refine ⟨second.interfaces, inv.containers, fun right => List.forall_mem_cons.mpr ⟨?_, second.weak right⟩⟩
    intro use x
    obtain ⟨late, early⟩ := List.forall_mem_cons.mp right
    rw [Tables.findWeakly, if_pos (((List.forall_mem_cons.mp early).1.isEmpty_eq use).trans none)]
    exact late use x
  next some =>
    refine ⟨first.interfaces, inv.containers, fun right => List.forall_mem_cons.mpr ⟨?_, first.weak right⟩⟩
    intro use x
    have here := (List.forall_mem_cons.mp right).1
    rw [Tables.findWeakly, if_neg (here.isEmpty_eq use ▸ some)]
    exact here use x

theorem Inv.step (inv : c.Inv) {step : Step D} (done : c.step step = some d) : d.Inv := by
  cases step with
  | set i =>
    cases done
    exact ⟨inv.interfaces, inv.containers, inv.weak⟩
  | del identifier =>
    obtain ⟨t, -, rfl⟩ := Option.map_eq_some_iff.mp done
    exact ⟨inv.interfaces, inv.containers, inv.weak⟩
  | restore identifier =>
    obtain ⟨t, -, rfl⟩ := Option.map_eq_some_iff.mp done
    exact ⟨inv.interfaces, inv.containers, inv.weak⟩
  | interface signature category useCache =>
    cases done
    exact inv.resolveInterface ..
  | weakly signature category useCache =>
    cases done
    exact inv.resolveInterfaceWeakly ..
  | containers declaration category =>
    cases done
    exact ⟨inv.interfaces, inv.containers.ask .., inv.weak⟩

/-- Caches make no difference if and only if what is found for a text, whatever the category, has not changed
when it is looked up again. -/
theorem right_iff_steady {steps : List (Step D)} (ran : steps.foldlM step empty = some c) :
    c.Right ↔ Call.Steady c.log ∧ Call.Steady c.containersLog := by
  have run (steps : List (Step D)) {b : InterfaceCollection D} (inv : b.Inv) (ran : steps.foldlM step b = some c) :
      c.Inv := by
    induction steps generalizing b with
    | nil =>
      cases ran
      exact inv
    | cons step rest ih =>
      obtain ⟨next, done, ran⟩ := Option.bind_eq_some_iff.mp ran
      exact ih (inv.step done) ran
  have inv := run steps ⟨.empty, .empty, fun _ => List.forall_mem_nil _⟩ ran
  rw [← inv.interfaces.steady, ← inv.containers.steady]
  exact ⟨fun right => ⟨right.1, right.2.2⟩, fun right => ⟨right.1, inv.weak right.1, right.2⟩⟩

end InterfaceCollection

/-- Texts as types. -/
instance : CType String where
  text := id
  eq := (· = ·)
  isPlain _ := false
  points _ := none
  takePointer := (· ++ " *")
  contains _ _ := none

/-- A structure is looked up in its category and then in another one. -/
def twoCategories : List (Step String) :=
  [.set ⟨"usb", "driver", some "struct usb_driver", true, []⟩, .interface "struct usb_driver" (some "usb") true,
    .interface "struct usb_driver" (some "tty") true]

theorem twoCategories_wrong : ∃ c, twoCategories.foldlM InterfaceCollection.step .empty = some c ∧ ¬ c.Right := by
  refine ⟨_, rfl, fun right => ?_⟩
  have wrong := right.1 _ List.mem_cons_self rfl ⟨"usb", "driver", some "struct usb_driver", true, []⟩
  exact absurd (wrong.mp (by decide)) (by decide)

/-- A structure is looked up in its category twice; another one is added in between and looked up after that. -/
def ownCategories : List (Step String) :=
  [.set ⟨"usb", "driver", some "struct usb_driver", true, []⟩, .interface "struct usb_driver" (some "usb") true,
    .set ⟨"tty", "driver", some "struct tty_driver", true, []⟩, .weakly "struct usb_driver" (some "usb") true,
    .interface "struct tty_driver" (some "tty") true, .containers "struct usb_driver" none]

theorem ownCategories_right : ∃ c, ownCategories.foldlM InterfaceCollection.step .empty = some c ∧
    c.log.length = 3 ∧ c.Right := by
  have iff := @InterfaceCollection.right_iff_steady _ _ _ ownCategories rfl
  refine ⟨_, rfl, rfl, iff.mpr ⟨⟨fun _ _ mem => ?_, fun _ old mem x => ?_, fun _ _ mem => ?_, trivial⟩,
    ⟨fun _ _ mem => ?_, trivial⟩⟩⟩
  · cases mem
  · cases Option.some.inj mem
    exact Iff.rfl
  · cases mem
  · cases mem

end Klever.Emg.InterfaceCache
