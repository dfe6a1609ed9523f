import MinOS.Pci.Scan

/-!
# Which functions a scan lists

Every bus that a scan enters takes at least one entry of the table, so that it goes at most
256 buses deep.  What it has stored when it succeeds is the listing of the buses below bus 0.
-/

namespace MinOS
namespace Pci

open Hierarchy Relation

namespace ConfigSpace

variable {config : ConfigSpace}

/-! ## What a scan does -/

variable (config) in
/-- A scan of the functions `fs` came to an end. -/
structure Scanned (fs : List Location) (t : Table) (r : Except Error PUnit) (t' : Table) : Prop where
  beyond : ∀ i, 256 ≤ i → t'.devices i = t.devices i
  grows : t.numDevice ≤ t'.numDevice
  bounded : t'.numDevice ≤ 256
  full : ∀ err, r = .error err → err = .kFull ∧ t'.numDevice = 256
  lists : r = .ok ⟨⟩ → ∃ l, Listing config.functionsOn config.leadsTo fs l ∧
    t'.listed = t.listed ++ l.map config.deviceAt

variable (config) in
/-- A scan of the functions `fs` comes to an end if there is room for fewer than `depth`
further entries. -/
def Scans (depth : ℕ) (fs : List Location) (x : Scan) : Prop :=
  ∀ t : Table, t.numDevice ≤ 256 → 256 < t.numDevice + depth →
    ∃ r t', x.run t = some (r, t') ∧ config.Scanned fs t r t'

theorem run_bind (x y : Scan) (t : Table) : (x >>= fun _ ↦ y).run t =
    (x.run t).bind fun r ↦ (ExceptT.bindCont (fun _ ↦ y) r.1 : StateT Table Option _) r.2 :=
  rfl

theorem run_bind_of_ok {x y : Scan} {t t' : Table} (h : x.run t = some (.ok ⟨⟩, t')) :
    (x >>= fun _ ↦ y).run t = y.run t' := by
  rw [run_bind, h]
  rfl

theorem run_bind_of_error {x y : Scan} {t t' : Table} {err : Error}
    (h : x.run t = some (.error err, t')) : (x >>= fun _ ↦ y).run t = some (.error err, t') := by
  rw [run_bind, h]
  rfl

theorem scans_pure (depth : ℕ) : config.Scans depth [] (pure ⟨⟩) := by
  intro t hroom _
  refine ⟨.ok ⟨⟩, t, rfl, fun _ _ ↦ rfl, le_rfl, hroom, ?_, fun _ ↦ ?_⟩
  · intro err h
    cases h
  · exact ⟨[], .nil, (List.append_nil _).symm⟩

theorem Scans.bind {depth : ℕ} {fs gs : List Location} {x y : Scan}
    (hx : config.Scans depth fs x) (hy : config.Scans depth gs y) :
    config.Scans depth (fs ++ gs) (x >>= fun _ ↦ y) := by
  intro t hroom hdepth
  obtain ⟨r, t₁, hrun, hscanned⟩ := hx t hroom hdepth
  have hgrows := hscanned.grows
  cases r with
  | error err =>
      refine ⟨.error err, t₁, run_bind_of_error hrun, ?_⟩
      exact ⟨hscanned.beyond, hgrows, hscanned.bounded, hscanned.full, fun h ↦ by cases h⟩
  | ok _ =>
      obtain ⟨l, hl, hlisted⟩ := hscanned.lists rfl
      obtain ⟨r, t', hrun', hscanned'⟩ := hy t₁ hscanned.bounded (by omega)
      refine ⟨r, t', (run_bind_of_ok hrun).trans hrun', ?_, ?_, hscanned'.bounded,
        hscanned'.full, ?_⟩
      · intro i hi
        rw [hscanned'.beyond i hi, hscanned.beyond i hi]
      · exact hgrows.trans hscanned'.grows
      · intro hok
        obtain ⟨l', hl', hlisted'⟩ := hscanned'.lists hok
        refine ⟨l ++ l', hl.append hl', ?_⟩
        rw [hlisted', hlisted, List.map_append, List.append_assoc]

theorem Scans.forM {depth : ℕ} {xs : List (BitVec 8)} {fs : BitVec 8 → List Location}
    {visit : BitVec 8 → Scan} (hvisit : ∀ x ∈ xs, config.Scans depth (fs x) (visit x)) :
    config.Scans depth (xs.flatMap fs) (xs.forM visit) := by
  induction xs with
  | nil => exact scans_pure depth
  | cons x xs ih =>
      rw [List.forall_mem_cons] at hvisit
      exact hvisit.1.bind (ih hvisit.2)

/-- A step that is skipped under a condition. -/
theorem Scans.unless {depth : ℕ} {c : Prop} [Decidable c] {fs : List Location} {x : Scan}
    (hx : ¬ c → config.Scans depth fs x) :
    config.Scans depth (if c then [] else fs) (unless c do x) := by
  by_cases hc : c
  · rw [if_pos hc, if_pos hc]
    exact scans_pure depth
  · rw [if_neg hc, if_neg hc]
    exact hx hc

theorem run_addDevice_of_full {t : Table} (hfull : t.numDevice = 256) (device : Device) :
    (addDevice device).run t = some (.error .kFull, t) := by
  change (if t.numDevice = 256 then _ else _ : Scan).run t = _
  rw [if_pos hfull]
  rfl

theorem run_addDevice {t : Table} (hroom : t.numDevice ≠ 256) (device : Device) :
    (addDevice device).run t = some (.ok ⟨⟩, t.store device) := by
  change (if t.numDevice = 256 then _ else _ : Scan).run t = _
  rw [if_neg hroom]
  rfl

/-- A function is stored, and what lies behind a bridge is scanned with one entry less. -/
theorem scans_scanFunction {depth : ℕ} {scanBus : BitVec 8 → Scan}
    (hbus : ∀ bus, config.Scans depth (config.functionsOn bus) (scanBus bus)) (f : Location) :
    config.Scans (depth + 1) [f] (config.scanFunction scanBus f.bus f.device f.function) := by
  intro t hroom hdepth
  have hcode : config.scanFunction scanBus f.bus f.device f.function =
      (addDevice (config.deviceAt f) >>= fun _ ↦
        if config.IsBridge f then scanBus (config.secondaryBus f) else pure ⟨⟩) := rfl
  rw [hcode]
  by_cases hfull : t.numDevice = 256
  · refine ⟨.error .kFull, t, run_bind_of_error (run_addDevice_of_full hfull _), fun _ _ ↦ rfl,
      le_rfl, hroom, ?_, ?_⟩
    · intro err herr
      cases herr
      exact ⟨rfl, hfull⟩
    · intro hok
      cases hok
  have hstored : (t.store (config.deviceAt f)).numDevice = t.numDevice + 1 := rfl
  have hbeyond : ∀ i, 256 ≤ i → (t.store (config.deviceAt f)).devices i = t.devices i := by
    intro i hi
    exact Function.update_of_ne (by omega) _ _
  rw [run_bind_of_ok (run_addDevice hfull _)]
  by_cases hbridge : config.IsBridge f
  · obtain ⟨r, t', hrun, hscanned⟩ := hbus (config.secondaryBus f) (t.store (config.deviceAt f))
      (by omega) (by omega)
    rw [if_pos hbridge]
    refine ⟨r, t', hrun, ?_, ?_, hscanned.bounded, hscanned.full, ?_⟩
    · intro i hi
      rw [hscanned.beyond i hi, hbeyond i hi]
    · exact (Nat.le_succ _).trans hscanned.grows
    · intro hok
      obtain ⟨l, hl, hlisted⟩ := hscanned.lists hok
      refine ⟨f :: (l ++ []), .branch (if_pos hbridge) hl .nil, ?_⟩
      rw [hlisted, Table.listed_store, List.append_nil, List.map_cons, List.append_assoc,
        List.singleton_append]
  · rw [if_neg hbridge]
    refine ⟨.ok ⟨⟩, _, rfl, hbeyond, Nat.le_succ _, ?_, ?_, ?_⟩
    · omega
    · intro err herr
      cases herr
    · intro _
      exact ⟨[f], .leaf (if_neg hbridge) .nil, Table.listed_store t _⟩

theorem scans_scanDevice {depth : ℕ} {scanBus : BitVec 8 → Scan}
    (hbus : ∀ bus, config.Scans depth (config.functionsOn bus) (scanBus bus))
    (bus device : BitVec 8) :
    config.Scans (depth + 1) (config.functionsOf bus device)
      (config.scanDevice scanBus bus device) := by
  refine (scans_scanFunction hbus ⟨bus, device, 0⟩).bind (.unless fun _ ↦ .forM fun function _ ↦ ?_)
  exact .unless fun _ ↦ scans_scanFunction hbus ⟨bus, device, function⟩

/-- Every bus below takes at least one entry, so that 257 of them are never needed. -/
theorem scans_scanBus (depth : ℕ) (bus : BitVec 8) :
    config.Scans depth (config.functionsOn bus) (config.scanBus depth bus) := by
  induction depth generalizing bus with
  | zero =>
      intro t hroom hdepth
      exact absurd hroom (by omega)
  | succ depth ih =>
      exact .forM fun device _ ↦ .unless fun _ ↦ scans_scanDevice ih bus device

theorem deviceAt_injective : Function.Injective config.deviceAt := by
  rintro ⟨bus, device, function⟩ ⟨bus', device', function'⟩ h
  simp only [deviceAt, Device.mk.injEq] at h
  obtain ⟨rfl, rfl, rfl, -⟩ := h
  rfl

/-- Every scan of all buses ends.  It stores nothing beyond the array and fails only when the
array is full; in a tree of buses one that succeeds has found every function once. -/
theorem scanAllBus_enumerates (config : ConfigSpace) (t : Table) {fuel : ℕ} (hfuel : 256 < fuel) :
    ∃ r t', (config.scanAllBus fuel).run t = some (r, t') ∧
      (∀ i, 256 ≤ i → t'.devices i = t.devices i) ∧ t'.numDevice ≤ 256 ∧
      (∀ err, r = .error err → err = .kFull ∧ t'.numDevice = 256) ∧
      (r = .ok ⟨⟩ → config.SingleHost → config.OneBridgePerBus → config.Enumerates t') := by
  have hbuses : ∀ functions, config.Scans fuel
      ((numbers 0 functions).flatMap fun function ↦
        if config.readVendorId 0 0 function = 0xffff then [] else config.functionsOn function)
      ((numbers 0 functions).forM fun function ↦
        unless config.readVendorId 0 0 function = 0xffff do config.scanBus fuel function) :=
    fun functions ↦ .forM fun function _ ↦ .unless fun _ ↦ scans_scanBus fuel function
  obtain ⟨r, t', hrun, hscanned⟩ := hbuses
    (if IsSingleFunctionDevice (config.readHeaderType 0 0 0) then 1 else 8)
    { t with numDevice := 0 } (Nat.zero_le _) (by omega)
  refine ⟨r, t', hrun, hscanned.beyond, hscanned.bounded, hscanned.full, ?_⟩
  rintro hok ⟨hhost, hsingle⟩ hbridges
  obtain ⟨l, hl, hlisted⟩ := hscanned.lists hok
  have hroot : (numbers 0 1).flatMap (fun function ↦
      if config.readVendorId 0 0 function = 0xffff then [] else config.functionsOn function) =
      config.functionsOn 0 := by
    change (if config.readVendorId 0 0 0 = 0xffff then [] else config.functionsOn 0) ++ [] = _
    rw [if_neg hhost, List.append_nil]
  rw [if_pos hsingle, hroot] at hl
  change t'.listed = l.map config.deviceAt at hlisted
  constructor
  · rw [hlisted]
    exact (hl.nodup (tree_of_oneBridgePerBus hbridges)).map deviceAt_injective
  · intro d
    rw [hlisted, List.mem_map]
    constructor
    · rintro ⟨f, hf, rfl⟩
      obtain ⟨bus, hbus, hfbus⟩ := hl.mem_iff_of_members.mp hf
      obtain ⟨rfl, hpresent⟩ := mem_functionsOn.mp hfbus
      exact ⟨f, reached_iff.mp hbus, hpresent, rfl⟩
    · rintro ⟨f, hreached, hpresent, rfl⟩
      refine ⟨f, hl.mem_iff_of_members.mpr ⟨f.bus, reached_iff.mpr hreached, ?_⟩, rfl⟩
      exact mem_functionsOn.mpr ⟨rfl, hpresent⟩

/-- A bridge beside the host bridge, and a device with functions 0 and 3 behind it. -/
def bridged : ConfigSpace where
  read bus device function reg :=
    let f : Location := ⟨bus, device, function⟩
    if f = ⟨0, 1, 0⟩ then
      if reg = 0x00 then 0x12348086 else if reg = 0x08 then 0x06040000
      else if reg = 0x0c then 0x00010000 else 0x00010100
    else if f ∈ [⟨0, 0, 0⟩, ⟨1, 0, 0⟩, ⟨1, 0, 3⟩] then
      if reg = 0x00 then 0x12348086 else if reg = 0x08 then 0x0c033000
      else if reg = 0x0c ∧ bus = 1 then 0x00800000 else 0
    else 0xffffffff

def noDevices : Table := ⟨fun _ ↦ ⟨0, 0, 0, 0, ⟨0, 0, 0⟩⟩, 0⟩

theorem eq_of_isBridge_bridged {f : Location} (h : bridged.IsBridge f) : f = ⟨0, 1, 0⟩ := by
  by_contra hne
  have hread : bridged.read f.bus f.device f.function 0x08 = 0x0c033000 ∨
      bridged.read f.bus f.device f.function 0x08 = 0xffffffff := by
    simp only [bridged, if_neg hne]
    rw [if_neg (by decide : ¬ (0x08 : BitVec 8) = 0x00), if_pos trivial]
    split_ifs
    · exact .inl rfl
    · exact .inr rfl
  rcases hread with hread | hread
  · rw [IsBridge, readClassCode, hread] at h
    revert h
    decide
  · rw [IsBridge, readClassCode, hread] at h
    revert h
    decide

theorem scanAllBus_enumerates_bridged :
    ∃ t', (bridged.scanAllBus 257).run noDevices = some (.ok ⟨⟩, t') ∧ bridged.Enumerates t' ∧
      t'.listed.map (fun d ↦ (d.bus, d.device, d.function)) =
        [(0, 0, 0), (0, 1, 0), (1, 0, 0), (1, 0, 3)] := by
  obtain ⟨r, t', hrun, -, -, -, henumerates⟩ :=
    @scanAllBus_enumerates bridged noDevices 257 (by decide)
  have hvalue : ((bridged.scanAllBus 257).run noDevices).map (fun p ↦ (p.1.toBool,
      p.2.listed.map fun d ↦ (d.bus, d.device, d.function))) =
      some (true, [(0, 0, 0), (0, 1, 0), (1, 0, 0), (1, 0, 3)]) := by
    decide +kernel
  rw [hrun, Option.map_some, Option.some.injEq, Prod.mk.injEq] at hvalue
  cases r with
  | error err => cases hvalue.1
  | ok _ =>
      refine ⟨t', hrun, henumerates rfl ⟨by decide, by decide⟩ ?_, hvalue.2⟩
      intro f g _ _ _ _ hf hg _
      rw [eq_of_isBridge_bridged hf, eq_of_isBridge_bridged hg]

end ConfigSpace

end Pci
end MinOS
