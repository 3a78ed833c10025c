import OsLabs.Jos.Memory
import OsLabs.Jos.Receivers

/-!
# Runs whose memory stays sound

The conditions on system calls under which the invariant of the address spaces
survives them, and what each operation of the kernel changes in the mappings
of the environments.
-/

namespace OsLabs.Jos

open Function
open OsLabs.Transition

/-- The memory of the kernel between two operations, when the environments have
been given the pages `given`. -/
structure Sound {m : Machine} (arena : Arena m) (Good : Word → Prop) (quiet : Set ℕ)
    (given : Slot → Set ℕ) (s : Kernel) : Prop where
  kern : s.kernPgdir = m.kernPgdir
  memory : MemoryOk arena Good quiet given (dirsOf s) s.phys

/-- A directory is in use. -/
theorem MemoryOk.dir_busy {ι : Type*} [Fintype ι] [DecidableEq ι] {m : Machine} {arena : Arena m}
    {Good : Word → Prop} {quiet : Set ℕ} {given : ι → Set ℕ} {dirs : ι → Option ℕ} {σ : Phys}
    {i : ι} {dir : ℕ} (hmem : MemoryOk arena Good quiet given dirs σ) (hdir : dirs i = some dir) :
    ¬ FreePage σ dir := by
  obtain ⟨free, leak, hspaces, -⟩ := hmem
  rintro ⟨free', hthreads, hfree⟩
  obtain rfl : free' = free := hthreads.unique hspaces.paged.threads
  exact (hspaces.paged.dir_busy i dir hdir).1 hfree

/-! ## Conditions on calls -/

section Conditions

variable (s : Kernel) (cur : Slot) (call : Call)

/-- The permissions asked for leave the address of the page alone.
`sys_ipc_try_send` makes sure of that itself. -/
def Unforged : Prop :=
  ∀ req, mapRequest s cur call = some req → call.sys ≠ .ipcTrySend →
    pteAddr (page2pa req.page ||| req.perm) = page2pa req.page

/-- No counter that the call increments is at its maximum. -/
def Roomy : Prop :=
  (∀ req, mapRequest s cur call = some req →
    InsertRoom req.memory req.dir req.page req.va ∧
      (call.sys = .pageAlloc → s.phys.ref req.page ≠ 0xFFFF)) ∧
  (call.sys = .exofork → ∀ pg, s.phys.pageFreeList = some pg → s.phys.ref pg ≠ 0xFFFF)

/-- The entries that the call writes satisfy `Good`. -/
def EntriesSatisfy (Good : Word → Prop) : Prop :=
  ∀ req, mapRequest s cur call = some req → Good (page2pa req.page ||| req.perm ||| pteP)

/-- A `sys_page_alloc` takes no page of `quiet`. -/
def TakesOther (quiet : Set ℕ) : Prop :=
  call.sys = .pageAlloc → ∀ req, mapRequest s cur call = some req → req.page ∉ quiet

/-- The condition under which memory stays sound. -/
structure CleanCall (Good : Word → Prop) (quiet : Set ℕ) (s : Kernel) (cur : Slot)
    (call : Call) : Prop where
  unforged : Unforged s cur call
  roomy : Roomy s cur call
  good : EntriesSatisfy s cur call Good
  other : TakesOther s cur call quiet

/-- Calls that forge no address and wrap no counter keep memory sound. -/
theorem CleanCall.of_roomy {s : Kernel} {cur : Slot} {call : Call}
    (hcall : Unforged s cur call ∧ Roomy s cur call) : CleanCall (fun _ => True) ∅ s cur call where
  unforged := hcall.1
  roomy := hcall.2
  good := fun _ _ => trivial
  other := fun _ _ _ hquiet => hquiet

/-- The pages given to the environments since they were created, after a call:
a page that is mapped for an environment is given to it. -/
def noteGiven (given : Slot → Set ℕ) : Slot → Set ℕ :=
  match resultOf s cur call with
  | none => given
  | some ret =>
      match mapRequest s cur call with
      | some req => if ret = 0 then give given req.target req.page else given
      | none =>
          match s.envFreeList with
          | some e => if call.sys = .exofork ∧ ¬ IsError ret then update given e ∅ else given
          | none => given

/-- The mapping that a call may change: an environment and an address. -/
def edits : Option (Slot × Word) :=
  if call.sys = .pageUnmap then
    if utop ≤ call.a2 ∨ roundDown call.a2 ≠ call.a2 then none
    else (envid2env s cur call.a1 true).map fun e => (e, call.a2)
  else (mapRequest s cur call).map fun req => (req.target, req.va)

end Conditions

/-! ## Calls -/

section Calls

variable {m : Machine} {arena : Arena m} {Good : Word → Prop} {quiet : Set ℕ}
variable {given : Slot → Set ℕ} {s s' : Kernel} {cur : Slot} {key ret : Word} {call : Call}

theorem plainCall_kernPgdir (hrun : plainCall s cur key call = some (ret, s')) :
    s'.kernPgdir = s.kernPgdir := by
  cases plainCall_effect hrun <;> rfl

/-- `sys_page_unmap`. -/
theorem plainCall_unmap (hsys : call.sys = .pageUnmap)
    (hrun : plainCall s cur key call = some (ret, s')) :
    (edits s cur call = none ∧ s' = s) ∨ ∃ e dir σ, edits s cur call = some (e, call.a2) ∧
      dirsOf s e = some dir ∧ call.a2 < utop ∧ pageRemove s.phys dir call.a2 = some σ ∧
      s' = s.setPhys σ := by
  simp only [plainCall, hsys, sysPageUnmap] at hrun
  split at hrun
  case isTrue hva =>
    cases hrun
    exact Or.inl ⟨by rw [edits, if_pos hsys, if_pos hva], rfl⟩
  case isFalse hva =>
    have hedits : edits s cur call = (envid2env s cur call.a1 true).map fun e => (e, call.a2) := by
      rw [edits, if_pos hsys, if_neg hva]
    rw [not_or, BitVec.not_le] at hva
    split at hrun
    case h_1 hnone =>
      cases hrun
      exact Or.inl ⟨by rw [hedits, hnone]; rfl, rfl⟩
    case h_2 e hfound =>
      simp only [Option.bind_eq_bind, Option.bind_eq_some_iff] at hrun
      obtain ⟨dir, hdir, σ, hremove, hdone⟩ := hrun
      cases hdone
      exact Or.inr ⟨e, dir, σ, by rw [hedits, hfound]; rfl, hdir, hva.1, hremove, rfl⟩

/-- Where a page that is mapped by a call comes from. -/
theorem mapRequest_shared {va : Word} {req : MapRequest} {entry : Word} {se : Slot}
    (hmem : MemoryOk arena Good quiet given (dirsOf s) s.phys) (hshared : SharedFrom s se va req entry) :
    va < utop ∧ mappedAt s.phys (dirsOf s) se va = some req.page ∧
      pgnum entry = req.page ∧ req.page < 2 ^ 20 := by
  obtain ⟨⟨srcdir, table, index, hdir, hva, hfound, rfl⟩, -, -, -⟩ := hshared
  obtain ⟨free, leak, hspaces, -⟩ := hmem
  obtain ⟨hslot, hpage⟩ := hspaces.lookup hdir hva hfound
  have hpool := (hspaces.mapped hva hslot).1
  exact ⟨hva, hslot, hpage, lt_of_lt_of_le (hspaces.paged.pool_lt _ hpool) hspaces.paged.npages_le⟩

/-- `sys_ipc_try_send` only passes on flags that the entry has. -/
theorem pteAddr_of_sent {entry perm : Word} (hsub : entry &&& perm = perm) :
    pteAddr (page2pa (pgnum entry) ||| perm) = page2pa (pgnum entry) := by
  rw [← pteAddr_eq_page2pa]
  unfold pteAddr at *
  rw [BitVec.and_or_distrib_right, ← hsub]
  ext i hi
  simp
  grind

/-- The `page_insert` of a call, and the `page_free` behind it when it fails. -/
theorem MemoryOk.request {req : MapRequest} {code : Word} {σ : Phys}
    (hmem : MemoryOk arena Good quiet given (dirsOf s) s.phys)
    (hclean : CleanCall Good quiet s cur call) (hreq : mapRequest s cur call = some req)
    (hrun : pageInsert req.memory req.dir req.page req.va req.perm = some (code, σ)) :
    (code = 0 → MemoryOk arena Good quiet (give given req.target req.page) (dirsOf s) σ ∧
      Remaps (dirsOf s) s.phys σ req.target req.va) ∧
    (code ≠ 0 → MemoryOk arena Good quiet given (dirsOf s)
        (if call.sys = .pageAlloc then pageFree σ req.page else σ) ∧
      SameMappings (dirsOf s) (dirsOf s) s.phys
        (if call.sys = .pageAlloc then pageFree σ req.page else σ)) := by
  have hgood := hclean.good req hreq
  have hroom := (hclean.roomy.1 req hreq).1
  -- `sys_page_map` and `sys_ipc_try_send` map a page that is mapped already
  have hshare {se : Slot} {va entry : Word} (hshared : SharedFrom s se va req entry)
      (hother : call.sys ≠ .pageAlloc)
      (hfit : pgnum entry = req.page → pteAddr (page2pa req.page ||| req.perm) = page2pa req.page) :
      (code = 0 → MemoryOk arena Good quiet (give given req.target req.page) (dirsOf s) σ ∧
        Remaps (dirsOf s) s.phys σ req.target req.va) ∧
      (code ≠ 0 → MemoryOk arena Good quiet given (dirsOf s)
          (if call.sys = .pageAlloc then pageFree σ req.page else σ) ∧
        SameMappings (dirsOf s) (dirsOf s) s.phys
          (if call.sys = .pageAlloc then pageFree σ req.page else σ)) := by
    obtain ⟨hva, hmapped, hentry, -⟩ := mapRequest_shared hmem hshared
    rw [hshared.memory] at hrun hroom
    rw [if_neg hother]
    exact hmem.insert hshared.dir hshared.va_lt hva hmapped (hfit hentry) hgood hroom hrun
  rcases mapRequest_sys hreq with hsys | hsys | hsys
  · obtain ⟨hhead, -, hdir, hva, hmemory, -, -⟩ := mapRequest_alloc hsys hreq
    rw [hmemory] at hrun hroom
    obtain ⟨hfailed, hdone⟩ := hmem.alloc hhead hdir hva
      (hclean.unforged req hreq (by rw [hsys]; decide)) hgood ((hclean.roomy.1 req hreq).2 hsys)
      hroom (hclean.other hsys req hreq) hrun
    rw [if_pos hsys]
    exact ⟨hdone, hfailed⟩
  · obtain ⟨se, entry, -, -, hshared, -, -⟩ := mapRequest_map hsys hreq
    exact hshare hshared (by rw [hsys]; decide) fun _ =>
      hclean.unforged req hreq (by rw [hsys]; decide)
  · obtain ⟨entry, -, hshared, -, -, -, hsub⟩ := mapRequest_send hsys hreq
    refine hshare hshared (by rw [hsys]; decide) fun hentry => ?_
    rw [← hentry]
    exact pteAddr_of_sent hsub

/-- Only three calls map a page. -/
theorem mapRequest_none
    (hsys : call.sys ≠ .pageAlloc ∧ call.sys ≠ .pageMap ∧ call.sys ≠ .ipcTrySend) :
    mapRequest s cur call = none := by
  cases hreq : mapRequest s cur call with
  | none => rfl
  | some req =>
    rcases mapRequest_sys hreq with h | h | h
    · exact absurd h hsys.1
    · exact absurd h hsys.2.1
    · exact absurd h hsys.2.2

/-- The pages that a call gives away. -/
theorem noteGiven_mapped {req : MapRequest} (hreq : mapRequest s cur call = some req)
    (hrun : plainCall s cur key call = some (ret, s')) :
    noteGiven s cur call given = if ret = 0 then give given req.target req.page else given := by
  have hsys : call.sys ≠ .cgetc := by
    rcases mapRequest_sys hreq with hsys | hsys | hsys <;> rw [hsys] <;> decide
  rw [noteGiven, resultOf_eq hsys hrun]
  dsimp only
  rw [hreq]

theorem noteGiven_other (hnone : mapRequest s cur call = none) (hsys : call.sys ≠ .exofork) :
    noteGiven s cur call given = given := by
  rw [noteGiven]
  cases resultOf s cur call with
  | none => rfl
  | some result =>
    dsimp only
    rw [hnone]
    dsimp only
    cases s.envFreeList with
    | none => rfl
    | some e => exact if_neg fun hforked => hsys hforked.1

/-- Other calls give nothing, unless they create an environment. -/
theorem noteGiven_same (hnone : mapRequest s cur call = none)
    (hfork : call.sys = .exofork → IsError ret)
    (hrun : plainCall s cur key call = some (ret, s')) : noteGiven s cur call given = given := by
  rw [noteGiven]
  cases hresult : resultOf s cur call with
  | none => rfl
  | some result =>
    dsimp only
    rw [hnone]
    dsimp only
    cases s.envFreeList with
    | none => rfl
    | some e =>
      refine if_neg fun hforked => hforked.2 ?_
      have hsame : result = ret := Option.some.inj (hresult.symm.trans
        (resultOf_eq (by rw [hforked.1]; decide) hrun))
      rw [hsame]
      exact hfork hforked.1

/-- A new environment has been given nothing. -/
theorem noteGiven_forked {e : Slot} (hsys : call.sys = .exofork) (hret : ¬ IsError ret)
    (hhead : s.envFreeList = some e) (hrun : plainCall s cur key call = some (ret, s')) :
    noteGiven s cur call given = update given e ∅ := by
  have hnone : mapRequest s cur call = none := mapRequest_none (by rw [hsys]; decide)
  rw [noteGiven, resultOf_eq (by rw [hsys]; decide) hrun]
  dsimp only
  rw [hnone]
  dsimp only
  rw [hhead]
  exact if_pos ⟨hsys, hret⟩

/-- What a call that returns does to the entries. -/
theorem Sound.afterCall (hsound : Sound arena Good quiet given s) (htable : TableOk s)
    (hclean : CleanCall Good quiet s cur call)
    (hrun : plainCall s cur key call = some (ret, s')) :
    Sound arena Good quiet (noteGiven s cur call given) s' ∧
      ∀ k, ViewKept (edits s cur call) (dirsOf s) (dirsOf s') s.phys s'.phys k := by
  have hkern' := (plainCall_kernPgdir hrun).trans hsound.kern
  by_cases hunmap : call.sys = .pageUnmap
  · rw [noteGiven_other (mapRequest_none (by rw [hunmap]; decide)) (by rw [hunmap]; decide)]
    rcases plainCall_unmap hunmap hrun with
      ⟨-, rfl⟩ | ⟨e, dir, σ, hedits, hdir, hva, hremove, rfl⟩
    · exact ⟨hsound, fun _ => ViewKept.refl _⟩
    · obtain ⟨hdone, hremaps⟩ := hsound.memory.remove hdir hva hremove
      rw [hedits]
      exact ⟨⟨hkern', hdone⟩, hremaps⟩
  have hedits : edits s cur call = (mapRequest s cur call).map fun req => (req.target, req.va) := by
    rw [edits, if_neg hunmap]
  cases plainCall_memory hrun with
  | same hnone hfork hphys hdirs =>
    rw [noteGiven_same hnone hfork hrun, hphys, hdirs]
    refine ⟨⟨hkern', ?_⟩, fun _ => ViewKept.refl _⟩
    rw [hphys, hdirs]
    exact hsound.memory
  | refused req σ hreq hret hinsert hphys hdirs =>
    obtain ⟨hdone, hsame⟩ := (hsound.memory.request hclean hreq hinsert).2 hret
    rw [← hphys] at hdone hsame
    rw [noteGiven_mapped hreq hrun, if_neg hret, hdirs]
    exact ⟨⟨hkern', hdirs.symm ▸ hdone⟩, fun k => (hsame k).weaken _⟩
  | mapped req hreq hret hinsert hdirs =>
    obtain ⟨hdone, hremaps⟩ := (hsound.memory.request hclean hreq hinsert).1 rfl
    rw [noteGiven_mapped hreq hrun, if_pos hret, hdirs, hedits, hreq]
    exact ⟨⟨hkern', hdirs.symm ▸ hdone⟩, hremaps⟩
  | unmapped _ _ hsys => exact absurd hsys hunmap
  | forked e p hsys hret hhead hpage hphys hdirs =>
    obtain ⟨hdone, hsame⟩ := hsound.memory.fork hpage (htable.head_pgdir hhead)
      (hclean.roomy.2 hsys p hpage)
    rw [hsound.kern] at hphys
    rw [← hphys, ← hdirs] at hdone hsame
    rw [noteGiven_forked hsys hret hhead hrun]
    exact ⟨⟨hkern', hdone⟩, fun k => (hsame k).weaken _⟩

end Calls

/-! ## Runs -/

section Runs

variable {m : Machine} {arena : Arena m} {Good : Word → Prop} {quiet : Set ℕ}
variable {given : Slot → Set ℕ} {s s' : Kernel} {c : ℕ} {e : Slot}

/-- What leaves memory and the directories alone. -/
theorem Sound.congr (hsound : Sound arena Good quiet given s) (hkern : s'.kernPgdir = s.kernPgdir)
    (hphys : s'.phys = s.phys) (hdirs : dirsOf s' = dirsOf s) : Sound arena Good quiet given s' where
  kern := hkern.trans hsound.kern
  memory := by
    rw [hphys, hdirs]
    exact hsound.memory

theorem Yielded.memory (hyielded : Yielded s c s') :
    s'.kernPgdir = s.kernPgdir ∧ s'.phys = s.phys ∧ dirsOf s' = dirsOf s := by
  have hdirs : dirsOf s' = dirsOf s := funext fun k =>
    congrArg (fun part => part.2.1) (hyielded.slotPart.1 k)
  cases hyielded with
  | keep => exact ⟨rfl, rfl, hdirs⟩
  | again => exact ⟨rfl, rfl, hdirs⟩
  | switch => exact ⟨rfl, rfl, hdirs⟩
  | halt => exact ⟨rfl, rfl, hdirs⟩

/-- `env_free`, with what the other environments keep. -/
theorem Sound.retire (hsound : Sound arena Good quiet given s) (hrun : Jos.retire s c e = some s') :
    Sound arena Good quiet given s' ∧ dirsOf s' = update (dirsOf s) e none ∧
      ∀ k, k ≠ e → ViewKept none (dirsOf s) (dirsOf s') s.phys s'.phys k := by
  obtain ⟨dir, σ, pt, hdir, hfree, hpage, rfl⟩ := retire_cases hrun
  obtain ⟨hsame, hdone, hkept⟩ := hsound.memory.destroy (i := e) hdir hfree
  obtain rfl : dir = pt := Option.some.inj (hsame.symm.trans hpage)
  have hdirs : (fun k => (update s.envs e { s.envs e with
      pgdir := none, status := .free, link := s.envFreeList } k).pgdir) =
      update (dirsOf s) e none := by
    funext k
    by_cases hk : k = e
    · rw [hk, update_self, update_self]
    · rw [update_of_ne hk, update_of_ne hk]
      rfl
  refine ⟨⟨hsound.kern, ?_⟩, hdirs, ?_⟩
  · change MemoryOk arena Good quiet given (fun k => (update s.envs e { s.envs e with
      pgdir := none, status := .free, link := s.envFreeList } k).pgdir) (pageDecref σ dir)
    rw [hdirs]
    exact hdone
  · intro k hk
    have hview := hkept k hk
    rw [← hdirs] at hview
    exact hview

/-- Memory stays sound in every run of clean calls. -/
theorem given_rules : KernelRules (fun _ => CleanCall Good quiet) noteGiven
    (fun s given => Sound arena Good quiet given s ∧ TableOk s)
    (fun _ s given => Sound arena Good quiet given s ∧ TableOk s) where
  enter := fun _ _ _ h => h
  setTf := fun s _ e tf h => ⟨h.1.congr rfl rfl (dirsOf_setEnv (by rfl)),
    (tableOk_rules fun _ => CleanCall Good quiet).setTf s e tf h.2⟩
  setTfMid := fun _ s _ e tf h => ⟨h.1.congr rfl rfl (dirsOf_setEnv (by rfl)),
    (tableOk_rules fun _ => CleanCall Good quiet).setTf s e tf h.2⟩
  setCpunum := fun c s _ e h hcur => ⟨h.1.congr rfl rfl (dirsOf_setEnv (by rfl)),
    (tableOk_rules fun _ => CleanCall Good quiet).setCpunum c s e h.2 hcur⟩
  resume := fun c s _ e h hcur _ => ⟨h.1.congr rfl rfl (dirsOf_setEnv (by rfl)),
    (tableOk_rules fun _ => CleanCall Good quiet).setCpunum c s e h.2 hcur⟩
  started := fun c s _ h hhalted => ⟨h.1.congr rfl rfl rfl,
    (tableOk_rules fun _ => CleanCall Good quiet).started c s h.2 hhalted⟩
  yield := fun c s _ s' h hrun => by
    obtain ⟨hkern, hphys, hdirs⟩ := (schedYield_cases hrun).memory
    exact ⟨h.1.congr hkern hphys hdirs,
      (tableOk_rules fun _ => CleanCall Good quiet).yield c s s' h.2 hrun⟩
  dying := fun c s _ cur e h _ _ _ _ => ⟨h.1.congr rfl rfl (dirsOf_setEnv (by rfl)),
    h.2.of_slotPart (fun k => field_setEnv Env.slotPart (by rfl) k) rfl⟩
  retire := fun c s _ cur e s' h hcur hmay hstatus hrun => ⟨(h.1.retire hrun).1,
    (tableOk_rules fun _ => CleanCall Good quiet).retire c s cur e s' h.2 hcur hmay hstatus hrun⟩
  plain := fun c s _ cur key call ret s' h hcur hclean hrun =>
    ⟨(h.1.afterCall h.2 hclean hrun).1,
      (tableOk_rules fun _ => CleanCall Good quiet).plain c s cur key call ret s' h.2 hcur hclean
        hrun⟩
  other := fun s cur call given hsys => by
    refine noteGiven_other (mapRequest_none ?_) ?_
    · rcases hsys with h | h | h <;> rw [h] <;> decide
    · rcases hsys with h | h | h <;> rw [h] <;> decide
  frame := fun s _ e dir va bytes σ h hdir hva hrun =>
    ⟨⟨h.1.kern, (h.1.memory.kernelStores (i := e) hdir hva hrun).1⟩,
      h.2.of_slotPart (fun _ => rfl) rfl⟩
  store := fun c s _ va byte s' h hrun => by
    have htable := (tableOk_rules fun _ => CleanCall Good quiet).store c s va byte s' h.2 hrun
    refine ⟨?_, htable⟩
    unfold Jos.userStore at hrun
    simp only [Option.bind_eq_bind, Option.bind_eq_some_iff] at hrun
    obtain ⟨cur, -, hrun⟩ := hrun
    split at hrun
    case isTrue hown =>
      simp only [Option.bind_eq_some_iff] at hrun
      obtain ⟨page, hreach, hrun⟩ := hrun
      cases hrun
      exact ⟨h.1.kern, (h.1.memory.userStore (i := cur) hown.2 hreach byte).1⟩
    case isFalse => cases hrun
  mmu := fun s _ bits h => ⟨⟨h.1.kern, (h.1.memory.setMmuBits bits).1⟩,
    h.2.of_slotPart (fun _ => rfl) rfl⟩

/-- The state after a run of clean calls. -/
theorem sound_runs {start : Kernel} (hsound : Sound arena Good quiet given start)
    (htable : TableOk start)
    (hrun : Runs step (CallsSatisfy fun _ => CleanCall Good quiet) start s) :
    ∃ given, Sound arena Good quiet given s := by
  obtain ⟨final, hghost⟩ := hrun.ghosted (noteCalls noteGiven) given
  exact ⟨final, (given_rules.runs (fun _ _ h => h.2.ids) ⟨hsound, htable⟩ hghost).1⟩

/-- What booting leaves. -/
theorem Boots.sound (hsane : m.Sane) (hloads : LoadsGood Good) {programs : List Program}
    (huser : ∀ program ∈ programs, program.InUser) (hboots : Boots m programs s) (quiet : Set ℕ) :
    ∃ (arena : Arena m) (given : Slot → Set ℕ), Sound arena Good quiet given s := by
  obtain ⟨hkern, hhoused⟩ := hboots.housed hsane hloads huser
  obtain ⟨arena, given, hmem⟩ := hhoused.arena quiet
  exact ⟨arena, given, hkern, hmem⟩

/-- The state after a run in which no address is forged and no counter wraps. -/
theorem ReachableUnder.sound (hreach : ReachableUnder (CallsSatisfy fun _ s cur call =>
    Unforged s cur call ∧ Roomy s cur call) s) :
    ∃ (m : Machine) (arena : Arena m) (given : Slot → Set ℕ),
      Sound arena (fun _ => True) ∅ given s := by
  obtain ⟨m, programs, booted, hsane, huser, hboots, hrun⟩ := hreach
  obtain ⟨arena, given, hstart⟩ : ∃ (arena : Arena m) (given : Slot → Set ℕ),
      Sound arena (fun _ => True) ∅ given booted :=
    hboots.sound hsane (fun _ _ => trivial) huser ∅
  obtain ⟨given', hsound⟩ := sound_runs hstart (hboots.fresh hsane).table
    (hrun.mono fun _ _ hcalls c s cur call hcall => CleanCall.of_roomy (hcalls c s cur call hcall))
  exact ⟨m, arena, given', hsound⟩

end Runs

end OsLabs.Jos
