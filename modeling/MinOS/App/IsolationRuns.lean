import MinOS.App.Accounts
import MinOS.App.Isolation

/-!
# What a call reads in a run

The bytes that a call of `ExecuteFile` reads change by its own steps only, and an image in
`app_loads` never changes.
-/

namespace MinOS
namespace App
namespace Lifetime

open Paging Paging.Machine Ownership Transition

/-- The byte at an address of the address space with this PML4. -/
def System.readAt (s : System) (pml4 vaddr : ℕ) : Option UInt8 := (s.machine pml4).readAt vaddr

/-- The processor lets an application store to these addresses. -/
def UserStores (s : System) : Op → Prop
  | .store n vaddr bytes => ∀ c, s.calls n = some c → ∀ k < bytes.length,
      access PageMapEntry.writable (s.machine c.cr3) 4 c.cr3 (pageOf (vaddr + k)) = true
  | _ => True

/-- Faults and stores are those of applications. -/
def UserSteps (s : System) (op : Op) : Prop := UserFaults s op ∧ UserStores s op

/-- The frames in `base` and those of all address spaces but that of the call `n` stay as they
are. -/
def Spares (base : ℕ → Prop) (n : ℕ) (s s' : System) : Prop :=
  ∀ f, (base f ∨ ∃ o, Owns appPolicy ((s.machine 0).spaces s.root) f o ∧
    ∀ fileEntry, o.space ≠ .app fileEntry n) → s'.mem f = s.mem f

section Steps

variable {s s' : System} {base : ℕ → Prop} {n : ℕ} {c c' : Call} {m : Machine} {freed : List ℕ}

theorem owns_machine (s : System) (cr3 : ℕ) {f : ℕ} {o : Owner AppSpace (ℕ × ℕ)} :
    Owns appPolicy ((s.machine cr3).spaces s.root) f o ↔
      Owns appPolicy ((s.machine 0).spaces s.root) f o := by
  have hmem : (s.machine cr3).mem = (s.machine 0).mem := rfl
  rw [spaces_of_mem hmem]

theorem spares_of_isolates {D : Set (ℕ × ℕ)}
    (h : Isolates appPolicy s.root base (.app c.fileEntry n) D (s.machine c.cr3) m)
    (r : Option Call) : Spares base n s (s.update m n r) := by
  intro f hf
  refine h.foreign (hf.imp_right ?_)
  rintro ⟨o, ho, hne⟩
  exact ⟨o, (owns_machine s c.cr3).mpr ho, hne c.fileEntry⟩

theorem isolates_setupStackPages (h : Inv base s) (hc : s.calls n = some c) {a k : ℕ}
    (ha : stackPage ≤ pageOf a) :
    Isolates appPolicy s.root base (.app c.fileEntry n) Set.univ (s.machine c.cr3)
      ((s.machine c.cr3).setupPageMaps (.ofValue a) k true).machine ∧
        GetsOwnPages appPolicy s.root (.app c.fileEntry n) (s.machine c.cr3)
          ((s.machine c.cr3).setupPageMaps (.ofValue a) k true).machine := by
  refine isolates_setupPages (h.machine _) (h.root hc) rfl (LinearAddress4Level.valid_ofValue a) ?_
  rw [← pageOf_eq]
  have hpage : stackPage = 2 ^ 36 - 1 - 0x100 := rfl
  intro p hlow hhigh hlt
  refine ⟨?_, fun f w hf ↦ own_of_stackPage h (ha.trans hlow) ((entry_machine s _ _ _).symm.trans hf)⟩
  change 256 ≤ p / 512 ^ 3
  omega

theorem spares_setupStack (h : Inv base s) (hc : s.calls n = some c)
    (hexec : s.setupStack n c = some s') : Spares base n s s' := by
  obtain ⟨hisolates, -⟩ := isolates_setupStackPages h hc (a := stackFrameAddr) (k := 0x100) le_rfl
  rw [System.setupStack] at hexec
  cases hresult : ((s.machine c.cr3).setupPageMaps (.ofValue stackFrameAddr) 0x100 true).result with
  | error err =>
      rw [hresult] at hexec
      cases hexec
  | ok r =>
      rw [hresult] at hexec
      obtain rfl := Option.some.inj hexec
      exact spares_of_isolates hisolates _

theorem spares_setupArgs (h : Inv base s) (hc : s.calls n = some c)
    {terminalFiles : List (Option OpenFile)} {command : List UInt8} {firstArg : Option (List UInt8)}
    (hcommand : command.length < kLineMax) (hargs : (firstArg.getD []).length < kLineMax)
    (hexec : s.setupArgs n terminalFiles command firstArg c = some s') : Spares base n s s' := by
  obtain ⟨hisolates, hgets⟩ :=
    isolates_setupStackPages h hc (a := argsFrameAddr) (k := 1) (by decide)
  rw [System.setupArgs] at hexec
  cases hresult : ((s.machine c.cr3).setupPageMaps (.ofValue argsFrameAddr) 1 true).result with
  | error err =>
      rw [hresult] at hexec
      cases hexec
  | ok r =>
      rw [hresult] at hexec
      obtain ⟨⟨result, av⟩, hvector, rfl⟩ := Option.map_eq_some_iff.mp hexec
      have hfit : command.length + (firstArg.getD []).length + 1 < argbufLen := by
        have hbuf : argbufLen = 30 * kLineMax := rfl
        have hmax : kLineMax = 128 := rfl
        omega
      have hown : OwnStack appPolicy s.root (.app c.fileEntry n)
          ((s.machine c.cr3).setupPageMaps (.ofValue argsFrameAddr) 1 true).machine := by
        intro p hp f w hf
        rcases hgets hf with hold | hown
        · exact own_of_stackPage h hp ((entry_machine s _ _ _).symm.trans hold)
        · exact hown
      have hstored := isolates_makeArgVector hisolates.accounted (hisolates.cr3 ▸ h.root hc) hown hfit
        hvector
      have hboth := hisolates.trans (hstored.mono (Set.empty_subset _))
      cases result <;> exact spares_of_isolates hboth _

/-- A page that the processor lets an application write is the application's own. -/
theorem ownRange_of_userStores (h : Inv base s) (hc : s.calls n = some c) {vaddr len : ℕ}
    (hfit : len ≠ 0 → userBase ≤ vaddr ∧ vaddr + len ≤ 2 ^ 64)
    (haccess : ∀ k < len,
      access PageMapEntry.writable (s.machine c.cr3) 4 c.cr3 (pageOf (vaddr + k)) = true) :
    OwnRange appPolicy ((s.machine c.cr3).spaces s.root) (.app c.fileEntry n) vaddr len := by
  intro k hk f w hf
  have hbase : userBase = 2 ^ 64 - 2 ^ 47 := rfl
  obtain ⟨hlow, hend⟩ := hfit (Nat.ne_zero_of_lt hk)
  have hentry : Entry userHalf 3 (pageOf (vaddr + k)) := entry_pageOf (by omega) (by omega)
  have hroot := h.root hc
  obtain ⟨e, hleaf, hcell⟩ := Option.map_eq_some_iff.mp
    ((entry_eq_pageEntry hroot hentry).symm.trans hf)
  have hleafAccess := access_eq (h.machine c.cr3) hroot hleaf hentry fun hd hentry htable hpresent ↦
    (h.machine c.cr3).inner hd.ne
      ((Accounted.entry_eq_cell hroot hentry htable).trans (cell_eq rfl hpresent))
  obtain ⟨-, rfl⟩ := Prod.mk.inj hcell
  exact hleafAccess.symm.trans (haccess k hk)

theorem spares_store (h : Inv base s) (hc : s.calls n = some c) {vaddr : ℕ} {bytes : List UInt8}
    (hfit : bytes ≠ [] → userBase ≤ vaddr ∧ vaddr + bytes.length ≤ 2 ^ 64)
    (haccess : ∀ k < bytes.length,
      access PageMapEntry.writable (s.machine c.cr3) 4 c.cr3 (pageOf (vaddr + k)) = true)
    (hexec : s.store n vaddr bytes c = some s') : Spares base n s s' := by
  obtain ⟨m, hstore, rfl⟩ := Option.map_eq_some_iff.mp hexec
  have hown := ownRange_of_userStores h hc
    (fun hne ↦ hfit fun hnil ↦ hne (by rw [hnil, List.length_nil])) haccess
  exact spares_of_isolates ((h.machine c.cr3).isolates_storeBytes (h.root hc) hfit hown hstore) _

theorem spares_pageFault (h : Inv base s) (hc : s.calls n = some c) {v : Fat.Volume}
    {errorCode a : ℕ} (hlow : userBase ≤ a) (hraises : Raises (s.machine c.cr3) errorCode a)
    (hexec : s.pageFault n v errorCode a c = some s') : Spares base n s s' := by
  obtain ⟨⟨result, m⟩, hfault, hexec⟩ := Option.bind_eq_some_iff.mp hexec
  cases result with
  | error err => cases hexec
  | ok u =>
      obtain rfl := Option.some.inj hexec
      exact spares_of_isolates
        (isolates_handlePageFault (h.machine c.cr3) (h.root hc) rfl hlow hraises hfault) _

theorem spares_cleanPageMaps (h : Inv base s) (hc : s.calls n = some c) :
    Spares base n s (s.cleanPageMaps n c).1 :=
  spares_of_isolates ((h.machine c.cr3).isolates_cleanPageMaps rfl
    (template_ne_app · c.fileEntry n) (h.root hc)) _

theorem spares_loadApp (h : Inv base s) {task : AppTask} {v : Fat.Volume} {behind : ℕ → UInt8}
    {fileEntry : ℕ} (hadmissible : Admissible s (.loadApp n task v behind fileEntry))
    (hexec : s.loadApp n task v behind fileEntry = some s') : Spares base n s s' := by
  rw [System.loadApp] at hexec
  split_ifs at hexec
  obtain ⟨⟨result, l⟩, hload, hexec⟩ := Option.bind_eq_some_iff.mp hexec
  cases result with
  | error err => cases hexec
  | ok appLoad =>
      obtain rfl := Option.some.inj hexec
      intro f hf
      have hin : s.Allocated f := by
        refine ((h.machine task.cr3).separated.accounted f).mpr (hf.imp_right ?_)
        rintro ⟨o, ho, -⟩
        exact ⟨o, (owns_machine s task.cr3).mpr ho⟩
      have hroot : s.root (.image fileEntry) = (s.appLoads fileEntry).map AppLoadInfo.pml4 := rfl
      exact mem_loadApp (h.machine task.cr3) hroot (fun hnone ↦ hadmissible hnone) hload hin

/-- A step spares the frames in `base`, of the other calls and of the images. -/
theorem spares_exec (h : Inv base s) {op : Op} (huser : UserSteps s op) (hop : Admissible s op)
    (hexec : s.exec op = some (s', freed)) : Spares base op.call s s' := by
  obtain ⟨hfault, hstores⟩ := huser
  cases op with
  | loadApp n task v behind fileEntry =>
      obtain ⟨s₁, hload, heq⟩ := Option.map_eq_some_iff.mp hexec
      obtain ⟨rfl, -⟩ := Prod.mk.inj heq
      exact spares_loadApp h hop hload
  | setupStack n =>
      obtain ⟨s₁, hstack, heq⟩ := Option.map_eq_some_iff.mp hexec
      obtain ⟨rfl, -⟩ := Prod.mk.inj heq
      obtain ⟨c, hin, hstack⟩ := Option.bind_eq_some_iff.mp hstack
      exact spares_setupStack h (callIn_eq_some hin).1 hstack
  | setupArgs n terminalFiles command firstArg =>
      obtain ⟨s₁, hargs, heq⟩ := Option.map_eq_some_iff.mp hexec
      obtain ⟨rfl, -⟩ := Prod.mk.inj heq
      obtain ⟨c, hin, hargs⟩ := Option.bind_eq_some_iff.mp hargs
      exact spares_setupArgs h (callIn_eq_some hin).1 hop.1 hop.2 hargs
  | store n vaddr bytes =>
      obtain ⟨s₁, hstore, heq⟩ := Option.map_eq_some_iff.mp hexec
      obtain ⟨rfl, -⟩ := Prod.mk.inj heq
      obtain ⟨c, hin, hstore⟩ := Option.bind_eq_some_iff.mp hstore
      obtain ⟨hc, -⟩ := callIn_eq_some hin
      exact spares_store h hc hop (hstores c hc) hstore
  | systemCall n task fileMapEnd =>
      obtain ⟨c, -, heq⟩ := Option.map_eq_some_iff.mp hexec
      obtain ⟨rfl, -⟩ := Prod.mk.inj heq
      exact fun _ _ ↦ rfl
  | pageFault n v errorCode causalAddr =>
      obtain ⟨s₁, hfaulted, heq⟩ := Option.map_eq_some_iff.mp hexec
      obtain ⟨rfl, -⟩ := Prod.mk.inj heq
      obtain ⟨c, hin, hfaulted⟩ := Option.bind_eq_some_iff.mp hfaulted
      obtain ⟨hc, -⟩ := callIn_eq_some hin
      exact spares_pageFault h hc hfault (hop c hc) hfaulted
  | cleanPageMaps n =>
      obtain ⟨c, hin, heq⟩ := Option.map_eq_some_iff.mp hexec
      obtain ⟨rfl, -⟩ := Prod.mk.inj heq
      exact spares_cleanPageMaps h (callIn_eq_some hin).1
  | freePML4 n =>
      obtain ⟨c, -, heq⟩ := Option.map_eq_some_iff.mp hexec
      obtain ⟨rfl, -⟩ := Prod.mk.inj heq
      exact fun _ _ ↦ rfl

/-- What other calls and images read is the same after the step. -/
theorem readAt_of_spares (h : Inv base s) (h' : Inv base s') (hmoves : Moves n s s')
    (hspares : Spares base n s s') {x : AppSpace} {r : ℕ} (hx : ∀ fileEntry, x ≠ .app fileEntry n)
    (hroot : s.root x = some r) {vaddr : ℕ} (hlow : userBase ≤ vaddr) (hlt : vaddr < 2 ^ 64) :
    s'.readAt r vaddr = s.readAt r vaddr := by
  refine (h.machine r).readAt_congr (h'.machine r) hroot (hmoves.roots hx hroot) hlow hlt ?_ ?_
  · rw [entry_machine, entry_machine, hmoves.entries _ hx hroot]
  · intro f w hf
    rw [entry_machine] at hf
    by_cases hw : w = appPolicy.own x
    · exact hspares f (.inr ⟨.entry x (3, pageOf vaddr), ⟨w, hf, fun _ ↦ hw⟩, hx⟩)
    · exact hspares f (.inr ⟨_, h.accounted.separated.shared ((h.accounted.leaf _).mpr rfl) hf hw,
        (template_ne_app x · n)⟩)

/-- A call that has been loaded reads what its image reads. -/
theorem readAt_loadApp (h : Inv base s) (h' : Inv base s') {task : AppTask} {v : Fat.Volume}
    {behind : ℕ → UInt8} {fileEntry : ℕ} (hadmissible : Admissible s (.loadApp n task v behind fileEntry))
    (hexec : s.loadApp n task v behind fileEntry = some s') :
    ∃ c first, s'.calls n = some c ∧ c.fileEntry = fileEntry ∧ s'.appLoads fileEntry = some first ∧
      ∀ vaddr, userBase ≤ vaddr → vaddr < 2 ^ 64 →
        s'.readAt c.appLoad.pml4 vaddr = s'.readAt first.pml4 vaddr := by
  rw [System.loadApp] at hexec
  split_ifs at hexec with hcall
  have hn : s.calls n = none := by simpa using hcall
  obtain ⟨⟨result, l⟩, hload, hexec⟩ := Option.bind_eq_some_iff.mp hexec
  cases result with
  | error err => cases hexec
  | ok appLoad =>
      obtain ⟨first, hfirst, hframes⟩ := frames_loadApp (h.machine task.cr3)
        (root_app_of_none hn fileEntry) rfl (fun hnone ↦ hadmissible hnone) hload
      obtain ⟨root', first', hloaded⟩ := loaded_loadApp (h.machine task.cr3)
        (root_app_of_none hn fileEntry) rfl (fun hnone ↦ hadmissible hnone) hload
      have happLoads : l.appLoads = Function.update s.appLoads fileEntry (some first) := by
        have hsame : l.appLoads fileEntry = some first' := by
          rw [hloaded.appLoads, Function.update_self]
        obtain rfl := Option.some.inj (hfirst.symm.trans hsame)
        exact hloaded.appLoads
      obtain ⟨c, hc⟩ : ∃ c : Call, c = ⟨⟨l.toFaultTask, l.machine.cr3, l.contextCr3, l.fileMapEnd⟩,
        fileEntry, appLoad, .loaded⟩ := ⟨_, rfl⟩
      dsimp only at hexec
      rw [← hc] at hexec
      have hs' := (Option.some.inj hexec).symm
      have hload' : c.appLoad = appLoad := by rw [hc]
      have hroot : s'.root = Function.update (Function.update s.root (.image fileEntry)
          (some first.pml4)) (.app fileEntry n) (some c.appLoad.pml4) :=
        root_loadApp hn (by rw [hs', ← happLoads]) (by rw [hs']) (by rw [hc])
      have himage : s'.root (.image fileEntry) = some first.pml4 := by
        rw [hroot, Function.update_of_ne (image_ne_app fileEntry fileEntry n), Function.update_self]
      have happ : s'.root (.app fileEntry n) = some c.appLoad.pml4 := by
        rw [hroot, Function.update_self]
      have hcalls : s'.calls n = some c := by
        rw [hs']
        exact Function.update_self n _ _
      have hfirst' : s'.appLoads fileEntry = some first := by
        rw [hs']
        exact hfirst
      refine ⟨c, first, hcalls, by rw [hc], hfirst', fun vaddr hlow hlt ↦ ?_⟩
      have hentry : Entry userHalf 3 (pageOf vaddr) := entry_pageOf hlow hlt
      refine (h'.machine first.pml4).readAt_congr (h'.machine c.appLoad.pml4) himage happ hlow hlt ?_
        fun _ _ _ ↦ rfl
      have hmem : (s'.machine 0).mem = l.machine.mem := by
        rw [hs']
        rfl
      rw [entry_machine, entry_machine, System.entry, System.entry, hroot, spaces_of_mem hmem, hload']
      exact hframes _ hentry

end Steps

/-! ## Runs -/

section Runs

variable {s₀ s s' : System} {base : ℕ → Prop} {n vaddr : ℕ} {ops : List Op} {c : Call}

/-- What an address space reads stays, and so does its root. -/
def KeepsReads (x : AppSpace) (s s' : System) : Prop :=
  ∀ r, s.root x = some r → s'.root x = some r ∧
    ∀ vaddr, userBase ≤ vaddr → vaddr < 2 ^ 64 → s'.readAt r vaddr = s.readAt r vaddr

theorem KeepsReads.refl (x : AppSpace) (s : System) : KeepsReads x s s :=
  fun _ hroot ↦ ⟨hroot, fun _ _ _ ↦ rfl⟩

theorem KeepsReads.trans {x : AppSpace} {s'' : System} (h : KeepsReads x s s')
    (h' : KeepsReads x s' s'') : KeepsReads x s s'' := by
  intro r hroot
  obtain ⟨hroot', hreads⟩ := h r hroot
  obtain ⟨hroot'', hreads'⟩ := h' r hroot'
  exact ⟨hroot'', fun vaddr hlow hlt ↦ (hreads' vaddr hlow hlt).trans (hreads vaddr hlow hlt)⟩

/-- One step of another call. -/
theorem keepsReads_exec {x : AppSpace} (h : Inv base s) {op : Op} (huser : UserSteps s op)
    (hop : Admissible s op) {freed : List ℕ} (hexec : s.exec op = some (s', freed))
    (hx : ∀ fileEntry, x ≠ .app fileEntry op.call) : Inv base s' ∧ KeepsReads x s s' := by
  have hkeeps := keeps_exec h huser.1 hop hexec
  have hspares := spares_exec h huser hop hexec
  exact ⟨hkeeps.inv, fun r hroot ↦ ⟨hkeeps.moves.roots hx hroot, fun vaddr hlow hlt ↦
    readAt_of_spares h hkeeps.inv hkeeps.moves hspares hx hroot hlow hlt⟩⟩

theorem keepsReads_run {x : AppSpace} (h : Inv base s)
    (hrun : Run (Guarded (fun t op ↦ UserSteps t op ∧ ∀ fileEntry, x ≠ .app fileEntry op.call) Step)
      s ops s') : Inv base s' ∧ KeepsReads x s s' := by
  have hinv : ∀ t op t', Inv base t ∧ KeepsReads x s t →
      Guarded (fun t op ↦ UserSteps t op ∧ ∀ fileEntry, x ≠ .app fileEntry op.call) Step t op t' →
      Inv base t' ∧ KeepsReads x s t' := by
    rintro t op t' ⟨ht, hreads⟩ ⟨⟨huser, hx⟩, hop, freed, hexec⟩
    obtain ⟨ht', hreads'⟩ := keepsReads_exec ht huser hop hexec hx
    exact ⟨ht', hreads.trans hreads'⟩
  exact hrun.invariant hinv ⟨h, .refl x s⟩

theorem inv_userRun (hfresh : s₀.Fresh) (hrun : Run (Guarded UserSteps Step) s₀ ops s) :
    Inv s₀.Allocated s :=
  (inv_run (n := 0) hfresh.inv (hrun.mono fun _ _ _ h ↦ ⟨h.1.1, h.2⟩)).1

/-- Steps that store nothing are steps of applications. -/
theorem userSteps_run (hrun : Run (Guarded UserFaults Step) s ops s')
    (hops : ∀ n vaddr bytes, .store n vaddr bytes ∉ ops) :
    Run (Guarded UserSteps Step) s ops s' := by
  induction hrun with
  | nil => exact .nil s
  | @snoc t u ops op run last ih =>
      have hlast : UserStores t op := by
        cases op with
        | store n vaddr bytes => exact absurd (List.mem_append_right _ (by simp)) (hops n vaddr bytes)
        | _ => trivial
      refine .snoc (ih fun n vaddr bytes hmem ↦ hops n vaddr bytes (List.mem_append_left _ hmem)) ?_
      exact ⟨⟨last.1, hlast⟩, last.2⟩

/-- A second call of the application is loaded. -/
theorem Started.exists_load {s : System} {c : Call} {first : AppLoadInfo} (h : Started s c first) :
    ∃ s', Step s (.loadApp 1 bootTask elfVolume (fun _ ↦ 0) Fat.sampleEntry) s' := by
  have hroot : s.root (.image Fat.sampleEntry) = some first.pml4 := by
    rw [System.root, h.appLoads, Option.map_some]
  have hfree : s.memoryManager.freeFrames ≠ ∅ := by
    intro hnone
    have hcard := h.card
    rw [hnone, Finset.card_empty] at hcard
    omega
  obtain ⟨appLoad, l, hload, -⟩ := loadApp_cached elfVolume (fun _ ↦ 0)
    (s := ⟨bootTask.toFaultTask, s.machine bootTask.cr3, bootTask.contextCr3, bootTask.fileMapEnd,
      s.appLoads⟩) h.appLoads
    (h.inv.accounted.separated.alloc_of_owns (o := .root (.image Fat.sampleEntry)) hroot)
    (fun _ ↦ h.absent) ((h.inv.allocated_iff 1).mpr (.inl (bootSystem_allocated 1 (by simp)))) hfree
  obtain ⟨s', c', hstep, -⟩ := exists_loadApp h.inv h.other (admissible_loadApp s 1) hload
  exact ⟨s', hstep.2⟩

/-- One step spares the frames in `base`. -/
theorem base_exec (h : Inv base s) {op : Op} (huser : UserSteps s op) (hop : Admissible s op)
    {freed : List ℕ} (hexec : s.exec op = some (s', freed)) :
    Inv base s' ∧ ∀ f, base f → s'.mem f = s.mem f :=
  ⟨(keeps_exec h huser.1 hop hexec).inv, fun f hf ↦ spares_exec h huser hop hexec f (.inl hf)⟩

/-- A page of the user half of an address space does not lie in `base`. -/
theorem not_base_of_translate (h : Inv base s) {x : AppSpace} {r : ℕ} (hroot : s.root x = some r)
    {vaddr phys : ℕ} (hlow : userBase ≤ vaddr) (hlt : vaddr < 2 ^ 64)
    (hphys : (s.machine r).translate vaddr = some phys) : ¬ base (phys / 4096) := by
  have haccounted := h.machine r
  obtain ⟨e, hoffset, hentry⟩ := haccounted.exists_page hroot hlow hlt hphys
  have hframe : phys / 4096 = e.pointer := by omega
  rw [hframe]
  intro hbase
  by_cases hw : e.writable = appPolicy.own x
  · exact haccounted.separated.outside hbase (o := .entry x (3, pageOf vaddr))
      ⟨e.writable, hentry, fun _ ↦ hw⟩
  · exact haccounted.separated.outside hbase
      (haccounted.separated.shared ((haccounted.leaf _).mpr rfl) hentry hw)

end Runs

end Lifetime
end App
end MinOS
