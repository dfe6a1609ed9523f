import MinOS.Library.Hierarchy
import MinOS.Memory.Bitmap

/-!
# PCI enumeration

`ScanAllBus` lists the functions of the bus of the host bridge and follows every bridge to
its secondary bus.  It takes the bus numbers as the hardware gives them; what ends a scan
that runs in circles is that the table of devices is full.
-/

namespace MinOS
namespace Pci

open Hierarchy Relation

structure ClassCode where
  base : BitVec 8
  sub : BitVec 8
  interface : BitVec 8
deriving DecidableEq, Repr

/-- `Match` with a base class and a subclass. -/
def ClassCode.Match (cc : ClassCode) (b s : BitVec 8) : Prop := b = cc.base ∧ s = cc.sub

instance (cc : ClassCode) (b s : BitVec 8) : Decidable (cc.Match b s) :=
  inferInstanceAs (Decidable (_ ∧ _))

structure Device where
  bus : BitVec 8
  device : BitVec 8
  function : BitVec 8
  headerType : BitVec 8
  classCode : ClassCode
deriving DecidableEq, Repr

/-- The array `devices` and what lies after it, and `num_device`. -/
structure Table where
  devices : ℕ → Device
  numDevice : ℕ

namespace Table

def store (t : Table) (device : Device) : Table :=
  ⟨Function.update t.devices t.numDevice device, t.numDevice + 1⟩

def listed (t : Table) : List Device := (List.range t.numDevice).map t.devices

theorem listed_store (t : Table) (device : Device) :
    (t.store device).listed = t.listed ++ [device] := by
  have hold : ∀ i ∈ List.range t.numDevice,
      Function.update t.devices t.numDevice device i = t.devices i := by
    intro i hi
    exact Function.update_of_ne (List.mem_range.mp hi).ne _ _
  simp only [listed, store, List.range_succ, List.map_append, List.map_cons, List.map_nil,
    Function.update_self, List.map_congr_left hold]

end Table

/-- What the registers of every function read as. -/
structure ConfigSpace where
  /-- The bus, the device, the function and the register. -/
  read : BitVec 8 → BitVec 8 → BitVec 8 → BitVec 8 → BitVec 32

/-- A scan may fail, and with too little fuel it is not over. -/
abbrev Scan : Type := ExceptT Error (StateT Table Option) PUnit

def numbers (first count : ℕ) : List (BitVec 8) := (List.range' first count).map (BitVec.ofNat 8)

def IsSingleFunctionDevice (headerType : BitVec 8) : Prop := headerType &&& 0x80 = 0

instance (headerType : BitVec 8) : Decidable (IsSingleFunctionDevice headerType) :=
  inferInstanceAs (Decidable (_ = _))

def addDevice (device : Device) : Scan := do
  let t ← get
  if t.numDevice = 256 then throw .kFull
  set (t.store device)

namespace ConfigSpace

variable (config : ConfigSpace)

def readVendorId (bus device function : BitVec 8) : BitVec 16 :=
  (config.read bus device function 0x00 &&& 0xffff).setWidth 16

def readHeaderType (bus device function : BitVec 8) : BitVec 8 :=
  ((config.read bus device function 0x0c >>> 16) &&& 0xff).setWidth 8

def readClassCode (bus device function : BitVec 8) : ClassCode :=
  let reg := config.read bus device function 0x08
  ⟨((reg >>> 24) &&& 0xff).setWidth 8, ((reg >>> 16) &&& 0xff).setWidth 8,
    ((reg >>> 8) &&& 0xff).setWidth 8⟩

def readBusNumbers (bus device function : BitVec 8) : BitVec 32 :=
  config.read bus device function 0x18

def scanFunction (scanBus : BitVec 8 → Scan) (bus device function : BitVec 8) : Scan := do
  let classCode := config.readClassCode bus device function
  let headerType := config.readHeaderType bus device function
  addDevice ⟨bus, device, function, headerType, classCode⟩
  if classCode.Match 0x06 0x04 then
    let busNumbers := config.readBusNumbers bus device function
    scanBus (((busNumbers >>> 8) &&& 0xff).setWidth 8)

def scanDevice (scanBus : BitVec 8 → Scan) (bus device : BitVec 8) : Scan := do
  config.scanFunction scanBus bus device 0
  unless IsSingleFunctionDevice (config.readHeaderType bus device 0) do
    (numbers 1 7).forM fun function ↦
      unless config.readVendorId bus device function = 0xffff do
        config.scanFunction scanBus bus device function

/-- `ScanBus`, to a depth of `fuel` buses. -/
def scanBus : ℕ → BitVec 8 → Scan
  | 0, _ => ExceptT.mk fun _ ↦ none
  | fuel + 1, bus =>
      (numbers 0 32).forM fun device ↦
        unless config.readVendorId bus device 0 = 0xffff do
          config.scanDevice (scanBus fuel) bus device

def scanAllBus (fuel : ℕ) : Scan := do
  modify fun t ↦ { t with numDevice := 0 }
  let functions := if IsSingleFunctionDevice (config.readHeaderType 0 0 0) then 1 else 8
  (numbers 0 functions).forM fun function ↦
    unless config.readVendorId 0 0 function = 0xffff do
      config.scanBus fuel function

/-! ## What there is -/

end ConfigSpace

/-- A function by its numbers. -/
structure Location where
  bus : BitVec 8
  device : BitVec 8
  function : BitVec 8
deriving DecidableEq, Repr

namespace ConfigSpace

variable (config : ConfigSpace)

/-- A bridge to another PCI bus. -/
def IsBridge (f : Location) : Prop :=
  (config.readClassCode f.bus f.device f.function).Match 0x06 0x04

instance (f : Location) : Decidable (config.IsBridge f) :=
  inferInstanceAs (Decidable (ClassCode.Match _ _ _))

def secondaryBus (f : Location) : BitVec 8 :=
  ((config.readBusNumbers f.bus f.device f.function >>> 8) &&& 0xff).setWidth 8

/-- The function answers.  A device has functions beside function 0 only if function 0
answers too and says so. -/
structure Present (f : Location) : Prop where
  device : f.device < 32
  function : f.function < 8
  first : config.readVendorId f.bus f.device 0 ≠ 0xffff
  others : f.function ≠ 0 → ¬ IsSingleFunctionDevice (config.readHeaderType f.bus f.device 0) ∧
    config.readVendorId f.bus f.device f.function ≠ 0xffff

/-- A bridge on the first bus leads to the second one. -/
def Leads (bus bus' : BitVec 8) : Prop :=
  ∃ f : Location, f.bus = bus ∧ config.Present f ∧ config.IsBridge f ∧ config.secondaryBus f = bus'

def Reached (bus : BitVec 8) : Prop := ReflTransGen config.Leads 0 bus

/-- The host bridge is there and has one function. -/
def SingleHost : Prop :=
  config.readVendorId 0 0 0 ≠ 0xffff ∧ IsSingleFunctionDevice (config.readHeaderType 0 0 0)

/-- No bus is the secondary bus of two bridges. -/
def OneBridgePerBus : Prop :=
  ∀ f g : Location, config.Reached f.bus → config.Reached g.bus → config.Present f →
    config.Present g → config.IsBridge f → config.IsBridge g →
    config.secondaryBus f = config.secondaryBus g → f = g

/-- What the table holds about a function. -/
def deviceAt (f : Location) : Device where
  bus := f.bus
  device := f.device
  function := f.function
  headerType := config.readHeaderType f.bus f.device f.function
  classCode := config.readClassCode f.bus f.device f.function

/-- The table has every function of every bus that is reached, once. -/
structure Enumerates (t : Table) : Prop where
  nodup : t.listed.Nodup
  mem_iff : ∀ d, d ∈ t.listed ↔ ∃ f : Location, config.Reached f.bus ∧ config.Present f ∧
    d = config.deviceAt f

/-! ## The functions of a bus in the order of the scan -/

def leadsTo (f : Location) : Option (BitVec 8) :=
  if config.IsBridge f then some (config.secondaryBus f) else none

def otherFunctions (bus device : BitVec 8) : List Location :=
  (numbers 1 7).flatMap fun function ↦
    if config.readVendorId bus device function = 0xffff then [] else [⟨bus, device, function⟩]

def functionsOf (bus device : BitVec 8) : List Location :=
  ⟨bus, device, 0⟩ ::
    if IsSingleFunctionDevice (config.readHeaderType bus device 0) then []
    else config.otherFunctions bus device

def functionsOn (bus : BitVec 8) : List Location :=
  (numbers 0 32).flatMap fun device ↦
    if config.readVendorId bus device 0 = 0xffff then [] else config.functionsOf bus device

variable {config}

theorem mem_numbers {first count : ℕ} (hcount : first + count ≤ 256) {x : BitVec 8} :
    x ∈ numbers first count ↔ first ≤ x.toNat ∧ x.toNat < first + count := by
  rw [numbers, List.mem_map]
  constructor
  · rintro ⟨i, hi, rfl⟩
    rw [List.mem_range'_1] at hi
    rw [BitVec.toNat_ofNat, Nat.mod_eq_of_lt (by omega)]
    exact hi
  · rintro ⟨hfirst, hlast⟩
    exact ⟨x.toNat, List.mem_range'_1.mpr ⟨hfirst, hlast⟩, BitVec.ofNat_toNat _ _⟩

theorem nodup_numbers {first count : ℕ} (hcount : first + count ≤ 256) :
    (numbers first count).Nodup := by
  refine List.Nodup.map_on ?_ List.nodup_range'
  intro i hi j hj h
  rw [List.mem_range'_1] at hi hj
  have h := congrArg BitVec.toNat h
  rwa [BitVec.toNat_ofNat, BitVec.toNat_ofNat, Nat.mod_eq_of_lt (by omega),
    Nat.mod_eq_of_lt (by omega)] at h

theorem mem_otherFunctions {bus device : BitVec 8} {f : Location} :
    f ∈ config.otherFunctions bus device ↔ f.bus = bus ∧ f.device = device ∧ f.function ≠ 0 ∧
      f.function < 8 ∧ config.readVendorId bus device f.function ≠ 0xffff := by
  rw [otherFunctions, List.mem_flatMap]
  constructor
  · rintro ⟨function, hfunction, hf⟩
    rw [mem_numbers (by norm_num)] at hfunction
    split_ifs at hf with hvendor
    · cases hf
    · obtain rfl := List.mem_singleton.mp hf
      refine ⟨rfl, rfl, ?_, ?_, hvendor⟩
      · intro hzero
        change function = 0 at hzero
        rw [hzero] at hfunction
        exact absurd hfunction.1 (by decide)
      · exact BitVec.lt_def.mpr hfunction.2
  · rintro ⟨rfl, rfl, hne, hlt, hvendor⟩
    refine ⟨f.function, (mem_numbers (by norm_num)).mpr ⟨?_, BitVec.lt_def.mp hlt⟩, ?_⟩
    · exact Nat.one_le_iff_ne_zero.mpr fun h ↦ hne (BitVec.eq_of_toNat_eq h)
    · rw [if_neg hvendor]
      exact List.mem_singleton.mpr rfl

theorem mem_functionsOn {bus : BitVec 8} {f : Location} :
    f ∈ config.functionsOn bus ↔ f.bus = bus ∧ config.Present f := by
  rw [functionsOn, List.mem_flatMap]
  constructor
  · rintro ⟨device, hdevice, hf⟩
    rw [mem_numbers (by norm_num)] at hdevice
    split_ifs at hf with hvendor
    · cases hf
    · rw [functionsOf, List.mem_cons] at hf
      rcases hf with rfl | hf
      · exact ⟨rfl, BitVec.lt_def.mpr hdevice.2, (by decide : (0 : BitVec 8) < 8), hvendor,
          fun h ↦ absurd rfl h⟩
      · split_ifs at hf with hsingle
        · cases hf
        · obtain ⟨rfl, rfl, -, hlt, hother⟩ := mem_otherFunctions.mp hf
          exact ⟨rfl, BitVec.lt_def.mpr hdevice.2, hlt, hvendor, fun _ ↦ ⟨hsingle, hother⟩⟩
  · rintro ⟨rfl, hdevice, hfunction, hfirst, hothers⟩
    refine ⟨f.device, (mem_numbers (by norm_num)).mpr ⟨Nat.zero_le _, BitVec.lt_def.mp hdevice⟩, ?_⟩
    rw [if_neg hfirst, functionsOf, List.mem_cons]
    by_cases hzero : f.function = 0
    · left
      rw [← hzero]
    · obtain ⟨hsingle, hvendor⟩ := hothers hzero
      rw [if_neg hsingle]
      exact .inr (mem_otherFunctions.mpr ⟨rfl, rfl, hzero, hfunction, hvendor⟩)

theorem nodup_flatMap {first count : ℕ} (hcount : first + count ≤ 256)
    {g : BitVec 8 → List Location} (key : Location → BitVec 8) (hg : ∀ x, (g x).Nodup)
    (hkey : ∀ x, ∀ f ∈ g x, key f = x) : ((numbers first count).flatMap g).Nodup := by
  rw [List.nodup_flatMap]
  refine ⟨fun x _ ↦ hg x, (nodup_numbers hcount).imp fun {x y} hne ↦ ?_⟩
  intro f hx hy
  exact hne ((hkey x f hx).symm.trans (hkey y f hy))

theorem nodup_otherFunctions (bus device : BitVec 8) :
    (config.otherFunctions bus device).Nodup := by
  apply nodup_flatMap (by norm_num) Location.function
  · intro function
    split_ifs
    · exact List.nodup_nil
    · exact List.nodup_singleton _
  · intro function f hf
    split_ifs at hf
    · cases hf
    · rw [List.mem_singleton.mp hf]

theorem mem_functionsOf {bus device : BitVec 8} {f : Location}
    (hf : f ∈ config.functionsOf bus device) : f.bus = bus ∧ f.device = device := by
  rw [functionsOf, List.mem_cons] at hf
  rcases hf with rfl | hf
  · exact ⟨rfl, rfl⟩
  · split_ifs at hf with hsingle
    · cases hf
    · obtain ⟨hbus, hdevice, -⟩ := mem_otherFunctions.mp hf
      exact ⟨hbus, hdevice⟩

theorem nodup_functionsOf (bus device : BitVec 8) : (config.functionsOf bus device).Nodup := by
  rw [functionsOf, List.nodup_cons]
  split_ifs
  · exact ⟨List.not_mem_nil, List.nodup_nil⟩
  · refine ⟨fun hmem ↦ ?_, nodup_otherFunctions bus device⟩
    exact (mem_otherFunctions.mp hmem).2.2.1 rfl

theorem nodup_functionsOn (bus : BitVec 8) : (config.functionsOn bus).Nodup := by
  apply nodup_flatMap (by norm_num) Location.device
  · intro device
    split_ifs
    · exact List.nodup_nil
    · exact nodup_functionsOf bus device
  · intro device f hf
    split_ifs at hf
    · cases hf
    · exact (mem_functionsOf hf).2

theorem below_iff {bus bus' : BitVec 8} :
    Below config.functionsOn config.leadsTo bus bus' ↔ config.Leads bus bus' := by
  simp only [Below, Leads, mem_functionsOn, leadsTo, and_assoc]
  refine exists_congr fun f ↦ and_congr_right fun _ ↦ and_congr_right fun _ ↦ ?_
  split_ifs with hbridge
  · simp [hbridge]
  · simp [hbridge]

theorem reached_iff {bus : BitVec 8} :
    ReflTransGen (Below config.functionsOn config.leadsTo) 0 bus ↔ config.Reached bus := by
  have h : Below config.functionsOn config.leadsTo = config.Leads := by
    funext bus bus'
    exact propext below_iff
  rw [h, Reached]

theorem leadsTo_eq_some {f : Location} {bus : BitVec 8} (h : config.leadsTo f = some bus) :
    config.IsBridge f ∧ config.secondaryBus f = bus := by
  rw [leadsTo] at h
  split_ifs at h with hbridge
  exact ⟨hbridge, Option.some.inj h⟩

/-- With one bridge for every bus the buses form a tree. -/
theorem tree_of_oneBridgePerBus (h : config.OneBridgePerBus) :
    Tree config.functionsOn config.leadsTo 0 where
  disjoint bus bus' f hf hf' := (mem_functionsOn.mp hf).1.symm.trans (mem_functionsOn.mp hf').1
  nodup := nodup_functionsOn
  parent bus bus' secondary f g hbus hbus' hf hg hnext hnext' := by
    obtain ⟨rfl, hpresent⟩ := mem_functionsOn.mp hf
    obtain ⟨rfl, hpresent'⟩ := mem_functionsOn.mp hg
    obtain ⟨hbridge, hsecondary⟩ := leadsTo_eq_some hnext
    obtain ⟨hbridge', hsecondary'⟩ := leadsTo_eq_some hnext'
    exact h f g (reached_iff.mp hbus) (reached_iff.mp hbus') hpresent hpresent' hbridge hbridge'
      (hsecondary.trans hsecondary'.symm)

end ConfigSpace

end Pci
end MinOS
