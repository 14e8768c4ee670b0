import Klever.Emg.Requirements
import Klever.Lib.Except

/-!
# Weak requirements

A weak requirement is read from a description, which lists processes that are required or forbidden and actions that are
required from them. It asks to keep at least one of required processes, with the actions required from it. The class inherits
the check of a single process from strict requirements, though, and that check is passed by any process that the requirement
does not mention. The process that the requirement belongs to is added to required ones when it is not listed.
`weak_exact_iff` says when the answer is right nevertheless.
-/

namespace Klever.Emg

open Klever.Lib Option

/-- A member of a list in a description, or the name of its type if it is not a string. -/
inductive Item where
  | str (text : String)
  | other (typeName : String)

/-- A value in a description, or the name of its type. -/
inductive Value where
  | bool (flag : Bool)
  | list (items : List Item)
  | other (typeName : String)

def Value.typeName : Value → String
  | .bool _ => "bool"
  | .list _ => "list"
  | .other typeName => typeName

/-- The description that requirements are read from. -/
structure Description where
  processes : Dict String Value
  actions : Dict String Value

/-- Whether a process is required. -/
def readFlag (name : String) : Value → Except String Bool
  | .bool flag => .ok flag
  | value => .error s!"Expect bool value instead of '{value.typeName}' for member '{name}'"

/-- A name of an action. -/
def readAction (name : String) : Item → Except String String
  | .str action => .ok action
  | .other typeName => .error s!"Expect names of actions, bug got '{typeName}' for member '{name}'"

/-- Actions that are required from a process. -/
def readActions (processes : Dict String Bool) (name : String) : Value → Except String (List String)
  | .list actions =>
    if processes.get? name = some true then actions.mapM (readAction name)
    else .error s!"Set process requirement for '{name}' besides adding requirements for actions"
  | value => .error s!"Expect list of actions but got '{value.typeName}' for member '{name}'"

/-- `from_dict`: requirements of a process called `me`. -/
def Requirements.fromDict (desc : Description) (me : String) : Except String Requirements := do
  let listed ← desc.processes.mapValsM readFlag
  let processes := if me ∈ listed.keys then listed else listed.set me true
  let actions ← desc.actions.mapValsM (readActions processes)
  return ⟨processes, actions⟩

/-- The process is listed as required. -/
def Description.Listed (desc : Description) (name : String) : Prop := desc.processes.get? name = some (.bool true)

namespace Requirements

/-- A process is in the model and has all actions required from it. -/
def Meets (r : Requirements) (m : Surroundings) (name : String) : Prop :=
  ∃ actions, m.actions.get? name = some actions ∧ ∀ a ∈ r.requiredActions name, a ∈ actions

variable {desc : Description} {me : String} {r : Requirements}

/-- Required processes are those that are listed, and the process itself if nothing is said of it. -/
theorem required_fromDict (made : fromDict desc me = .ok r) (name : String) :
    r.processes.get? name = some true ↔ desc.Listed name ∨ name = me ∧ desc.processes.get? me = .none := by
  obtain ⟨listed, read, made⟩ := bind_eq_ok_iff.mp made
  obtain ⟨actions, -, made⟩ := bind_eq_ok_iff.mp made
  obtain rfl := Except.ok.inj made
  have known (name : String) : listed.get? name = some true ↔ desc.Listed name := by
    rw [Dict.get?_mapValsM read]
    constructor
    · rintro ⟨value, found, is⟩
      cases value with
      | bool flag =>
        cases is
        exact found
      | list | other => cases is
    · exact fun found => ⟨_, found, rfl⟩
  have mentioned : me ∈ listed.keys ↔ desc.processes.get? me ≠ .none := by
    rw [Dict.mem_keys_iff, ne_none_iff_exists']
    constructor
    · rintro ⟨flag, found⟩
      obtain ⟨value, there, -⟩ := (Dict.get?_mapValsM read).mp found
      exact ⟨value, there⟩
    · rintro ⟨value, there⟩
      obtain ⟨flag, is⟩ := Dict.ok_of_mapValsM read there
      exact ⟨flag, (Dict.get?_mapValsM read).mpr ⟨value, there, is⟩⟩
  by_cases there : me ∈ listed.keys
  · rw [if_pos there, known, or_iff_left fun absent => mentioned.mp there absent.2]
  · have absent := not_not.mp (mentioned.not.mp there)
    rw [if_neg there, Dict.get?_set]
    split
    next same => exact iff_of_true rfl (.inr ⟨same, absent⟩)
    next differs => rw [known, or_iff_left fun same => differs same.1]

/-- A process that is asked for is compatible exactly when it has all required actions. -/
theorem compatible_of_required {name : String} {actions : List String} (required : r.processes.get? name = some true) :
    r.compatible name actions ↔ ∀ a ∈ r.requiredActions name, a ∈ actions := by
  rw [compatible_iff, required, requiredActions]

end Requirements

namespace Requirement

open Requirements

variable {desc : Description} {me : String} {r : Requirements}

/-- A required process that is there with its actions is enough. -/
theorem weak_of_meets {name : String} {m : Surroundings} (required : r.processes.get? name = some true)
    (meets : r.Meets m name) : (weak r).compatibleWithModel m none = true := by
  obtain ⟨actions, found, all⟩ := meets
  have there : m.has name := by
    rw [Surroundings.has, Bool.or_eq_true, decide_eq_true_eq, Dict.mem_keys_iff]
    exact .inl ⟨actions, found⟩
  apply compatibleWithModel_weak.mpr
  constructor
  · exact ⟨name, actions, found, (compatible_of_required required).mpr all⟩
  · exact .inr ⟨name, mem_requiredProcesses.mpr required, there⟩

/-- Apart from a listed process, a weak requirement is met by the process that it belongs to, and by any process that it does
not mention if one of required processes is there, whatever actions it has. -/
theorem weak_iff (made : fromDict desc me = .ok r) (listed : ∃ name, desc.Listed name) (m : Surroundings) :
    (weak r).compatibleWithModel m none = true ↔
      (∃ name, desc.Listed name ∧ r.Meets m name) ∨ (desc.processes.get? me = .none ∧ r.Meets m me) ∨
        (∃ name ∈ m.actions.keys, name ∉ r.processes.keys) ∧ ∃ name ∈ r.requiredProcesses, m.has name := by
  have required := required_fromDict made
  constructor
  · intro met
    obtain ⟨⟨name, actions, found, compatible⟩, present⟩ := compatibleWithModel_weak.mp met
    have there : ∃ name ∈ r.requiredProcesses, m.has name := by
      obtain ⟨first, is⟩ := listed
      refine present.resolve_left fun none => ?_
      have mem := mem_requiredProcesses.mpr ((required first).mpr (.inl is))
      rw [none] at mem
      cases mem
    -- the process that is compatible is required, forbidden or not mentioned
    rcases asked : r.processes.get? name with _ | _ | _
    · have unknown : name ∉ r.processes.keys := by
        rw [Dict.mem_keys_iff, asked]
        nofun
      exact .inr (.inr ⟨⟨name, Dict.mem_keys_iff.mpr ⟨actions, found⟩, unknown⟩, there⟩)
    · rw [compatible_iff, asked] at compatible
      exact compatible.elim
    · have meets : r.Meets m name := ⟨actions, found, (compatible_of_required asked).mp compatible⟩
      obtain is | ⟨rfl, absent⟩ := (required name).mp asked
      · exact .inl ⟨name, is, meets⟩
      · exact .inr (.inl ⟨absent, meets⟩)
  · rintro (⟨name, is, meets⟩ | ⟨absent, meets⟩ | ⟨⟨name, mem, unknown⟩, there⟩)
    · exact weak_of_meets ((required name).mpr (.inl is)) meets
    · exact weak_of_meets ((required me).mpr (.inr ⟨rfl, absent⟩)) meets
    · obtain ⟨actions, found⟩ := Dict.mem_keys_iff.mp mem
      have asked : r.processes.get? name = .none := by
        rw [Dict.mem_keys_iff, not_exists] at unknown
        exact eq_none_iff_forall_ne_some.mpr unknown
      apply compatibleWithModel_weak.mpr
      refine ⟨⟨name, actions, found, ?_⟩, .inr there⟩
      rw [compatible_iff, asked]
      trivial

/-- A weak requirement asks for one of listed processes exactly when one of them is there, with the actions required from it,
or the process of the requirement does not stand for them, and neither does a process that the requirement does not mention. -/
theorem weak_exact_iff (made : fromDict desc me = .ok r) (listed : ∃ name, desc.Listed name) (m : Surroundings) :
    ((weak r).compatibleWithModel m none = true ↔ ∃ name, desc.Listed name ∧ r.Meets m name) ↔
      (∃ name, desc.Listed name ∧ r.Meets m name) ∨ (desc.processes.get? me = .none → ¬ r.Meets m me) ∧
          ((∀ name ∈ m.actions.keys, name ∈ r.processes.keys) ∨ ∀ name ∈ r.requiredProcesses, ¬ m.has name) := by
  rw [weak_iff made listed]
  by_cases suits : ∃ name, desc.Listed name ∧ r.Meets m name
  · exact iff_of_true (iff_of_true (.inl suits) suits) (.inl suits)
  · rw [iff_false_right suits, or_iff_right suits, or_iff_right suits, not_or, not_and, not_and_or]
    push Not
    rfl

/-- A requirement to keep a character device that opens or a disk. -/
def devices : Description where
  processes := ⟨[("vfs/char", .bool true), ("vfs/disk", .bool true)], by decide⟩
  actions := ⟨[("vfs/char", .list [.str "open"])], by decide⟩

/-- What is read if the requirement belongs to a USB driver. -/
def usbDevices : Requirements where
  processes := ⟨[("vfs/char", true), ("vfs/disk", true), ("usb/driver", true)], by decide⟩
  actions := ⟨[("vfs/char", ["open"])], by decide⟩

/-- The character device is enough if it opens. -/
theorem devices_kept : fromDict devices "usb/driver" = .ok usbDevices ∧
    ((weak usbDevices).compatibleWithModel ⟨⟨[("vfs/char", ["open", "release"])], by decide⟩, .empty⟩ none = true ↔
      ∃ name, devices.Listed name ∧
        usbDevices.Meets ⟨⟨[("vfs/char", ["open", "release"])], by decide⟩, .empty⟩ name) := by
  have made : fromDict devices "usb/driver" = .ok usbDevices := rfl
  have listed : devices.Listed "vfs/char" := rfl
  refine ⟨made, (weak_exact_iff made ⟨_, listed⟩ _).mpr (.inl ⟨"vfs/char", listed, ["open", "release"], rfl, ?_⟩)⟩
  decide

/-- The driver without devices. -/
def driverOnly : Surroundings where
  actions := ⟨[("usb/driver", ["probe"])], by decide⟩
  attributes := .empty

/-- A device that does not open. -/
def closedDevice : Surroundings where
  actions := ⟨[("vfs/char", ["read"]), ("timer/timer", ["wait"])], by decide⟩
  attributes := .empty

/-- There are neither devices that open nor disks, but the requirement is met by the driver itself, or by a timer. -/
theorem devices_lost : fromDict devices "usb/driver" = .ok usbDevices ∧ devices.Listed "vfs/char" ∧
    ((weak usbDevices).compatibleWithModel driverOnly none = true ∧
      ¬ ∃ name, devices.Listed name ∧ usbDevices.Meets driverOnly name) ∧
    (weak usbDevices).compatibleWithModel closedDevice none = true ∧
      ¬ ∃ name, devices.Listed name ∧ usbDevices.Meets closedDevice name := by
  have listed {name : String} (is : devices.Listed name) : name = "vfs/char" ∨ name = "vfs/disk" := by
    have mem := Dict.mem_keys_iff.mpr ⟨_, is⟩
    simpa [devices, Dict.keys] using mem
  refine ⟨rfl, rfl, ⟨by decide, ?_⟩, by decide, ?_⟩
  · rintro ⟨name, is, actions, found, -⟩
    obtain rfl | rfl := listed is
    all_goals cases found
  · rintro ⟨name, is, actions, found, all⟩
    obtain rfl | rfl := listed is
    · cases found
      exact absurd (all "open" (by decide)) (by decide)
    · cases found

end Requirement

end Klever.Emg
