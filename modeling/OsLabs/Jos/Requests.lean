import OsLabs.Jos.SpaceLifetime
import OsLabs.Jos.EnvTable

/-!
# What system calls do to memory

`sys_page_alloc`, `sys_page_map` and `sys_ipc_try_send` end in a call of
`page_insert`.  `mapRequest` gives its arguments, once all checks have passed;
`plainCall_memory` says what each returning call does to physical memory.
-/

namespace OsLabs.Jos

open Function

/-- The arguments of `page_insert`, with the environment that `dir` belongs to
and the memory at that point. -/
structure MapRequest where
  memory : Phys
  target : Slot
  dir : ℕ
  page : ℕ
  va : Word
  perm : Word

/-- The checks of `sys_page_alloc` and `sys_page_map` on permissions. -/
def permOk (perm : Word) : Prop := perm &&& (pteU ||| pteP) = pteU ||| pteP

instance (perm : Word) : Decidable (permOk perm) :=
  inferInstanceAs (Decidable (_ = _))

/-- The call of `page_insert` that a system call makes. -/
def mapRequest (s : Kernel) (cur : Slot) (call : Call) : Option MapRequest :=
  match call.sys with
  | .pageAlloc => do
      let e ← envid2env s cur call.a1 true
      if utop ≤ call.a2 ∨ ¬ permOk call.a3 then none
      else
        let pg ← s.phys.pageFreeList
        let dir ← (s.envs e).pgdir
        return ⟨(takePage s.phys pg true).incRef pg, e, dir, pg, call.a2, call.a3⟩
  | .pageMap => do
      let se ← envid2env s cur call.a1 true
      let de ← envid2env s cur call.a3 true
      if utop ≤ call.a2 ∨ utop ≤ call.a4 ∨ roundDown call.a2 ≠ call.a2 ∨
          roundDown call.a4 ≠ call.a4 then none
      else
        let srcdir ← (s.envs se).pgdir
        let (pg, (table, index)) ← (pageLookup s.phys srcdir call.a2).join
        if ¬ permOk call.a5 ∨ s.phys.load table index &&& pteW = 0 ∧ call.a5 &&& pteW ≠ 0 then
          none
        else
          let dstdir ← (s.envs de).pgdir
          return ⟨s.phys, de, dstdir, pg, call.a4, call.a5⟩
  | .ipcTrySend => do
      let e ← envid2env s cur call.a1 false
      if (s.envs e).ipcRecving = false ∨ ¬ call.a3 < utop then none
      else
        let srcdir ← (s.envs cur).pgdir
        let (pg, (table, index)) ← (pageLookup s.phys srcdir call.a3).join
        let pte := s.phys.load table index
        if pte &&& call.a4 ≠ call.a4 ∨ (call.a4 &&& pteW ≠ 0 ∧ pte &&& pteW = 0) ∨
            call.a3 ≠ roundDown call.a3 ∨ ¬ (s.envs e).ipcDstva < utop then none
        else
          let dstdir ← (s.envs e).pgdir
          return ⟨s.phys, e, dstdir, pg, (s.envs e).ipcDstva, call.a4⟩
  | _ => none

/-- The page directories of the environments. -/
def dirsOf (s : Kernel) : Slot → Option ℕ := fun e => (s.envs e).pgdir

/-- What a returning call does to memory. -/
inductive MemoryEffect (s : Kernel) (cur : Slot) (call : Call) (ret : Word) (s' : Kernel) : Prop
  | same : mapRequest s cur call = none → (call.sys = .exofork → IsError ret) →
      s'.phys = s.phys → dirsOf s' = dirsOf s → MemoryEffect s cur call ret s'
  /-- `page_insert` found no memory for a page table -/
  | refused (req : MapRequest) (σ : Phys) : mapRequest s cur call = some req → ret ≠ 0 →
      pageInsert req.memory req.dir req.page req.va req.perm = some (ret, σ) →
      s'.phys = (if call.sys = .pageAlloc then pageFree σ req.page else σ) →
      dirsOf s' = dirsOf s → MemoryEffect s cur call ret s'
  | mapped (req : MapRequest) : mapRequest s cur call = some req → ret = 0 →
      pageInsert req.memory req.dir req.page req.va req.perm = some (0, s'.phys) →
      dirsOf s' = dirsOf s → MemoryEffect s cur call ret s'
  | unmapped (e : Slot) (dir : ℕ) : call.sys = .pageUnmap →
      envid2env s cur call.a1 true = some e → (s.envs e).pgdir = some dir → call.a2 < utop →
      pageRemove s.phys dir call.a2 = some s'.phys → dirsOf s' = dirsOf s → MemoryEffect s cur call ret s'
  | forked (e : Slot) (p : ℕ) : call.sys = .exofork → ¬ IsError ret → s.envFreeList = some e →
      s.phys.pageFreeList = some p → s'.phys = setupDir s.phys s.kernPgdir p →
      dirsOf s' = update (dirsOf s) e (some p) → MemoryEffect s cur call ret s'

theorem dirsOf_setEnv {s : Kernel} {e : Slot} {env : Env} (hsame : env.pgdir = (s.envs e).pgdir) :
    dirsOf (s.setEnv e env) = dirsOf s :=
  funext fun k => field_setEnv Env.pgdir hsame k

section Handlers

variable {s s' : Kernel} {cur : Slot} {call : Call} {ret : Word}

theorem sysPageAlloc_effect (hsys : call.sys = .pageAlloc)
    (hrun : sysPageAlloc s cur call.a1 call.a2 call.a3 = some (ret, s')) :
    MemoryEffect s cur call ret s' := by
  have hnotFork : call.sys = .exofork → IsError ret := by simp [hsys]
  unfold sysPageAlloc at hrun
  cases hfound : envid2env s cur call.a1 true with
  | none =>
      simp only [hfound] at hrun
      cases hrun
      exact .same (by simp [mapRequest, hsys, hfound]) hnotFork rfl rfl
  | some e =>
      simp only [hfound] at hrun
      split at hrun
      case isTrue hva =>
          cases hrun
          exact .same (by simp [mapRequest, hsys, hfound, hva]) hnotFork rfl rfl
      case isFalse hva =>
          split at hrun
          case isTrue hperm =>
              cases hrun
              exact .same (by simp [mapRequest, hsys, hfound, permOk, hperm]) hnotFork rfl rfl
          case isFalse hperm =>
              cases hhead : s.phys.pageFreeList with
              | none =>
                  simp only [pageAlloc, hhead] at hrun
                  cases hrun
                  exact .same (by simp [mapRequest, hsys, hfound, hhead]) hnotFork rfl rfl
              | some pg =>
                  have halloc : pageAlloc s.phys true = (some pg, takePage s.phys pg true) := by
                    rw [pageAlloc, hhead]
                    rfl
                  simp only [halloc, Option.bind_eq_bind, Option.bind_eq_some_iff] at hrun
                  obtain ⟨dir, hdir, ⟨code, σ⟩, hinsert, hrun⟩ := hrun
                  have hrequest : mapRequest s cur call =
                      some ⟨(takePage s.phys pg true).incRef pg, e, dir, pg, call.a2, call.a3⟩ := by
                    rw [not_not] at hperm
                    simp [mapRequest, hsys, hfound, hhead, hdir, hva, permOk, hperm]
                  split at hrun
                  case isTrue hcode =>
                      cases hrun
                      exact .refused _ σ hrequest hcode hinsert (by rw [if_pos hsys]; rfl) rfl
                  case isFalse hcode =>
                      rw [not_not] at hcode
                      subst hcode
                      cases hrun
                      exact .mapped _ hrequest rfl hinsert rfl

theorem sysPageMap_effect (hsys : call.sys = .pageMap)
    (hrun : sysPageMap s cur call.a1 call.a2 call.a3 call.a4 call.a5 = some (ret, s')) :
    MemoryEffect s cur call ret s' := by
  have hnotFork : call.sys = .exofork → IsError ret := by simp [hsys]
  unfold sysPageMap at hrun
  cases hsrc : envid2env s cur call.a1 true with
  | none =>
      simp only [hsrc] at hrun
      cases hrun
      exact .same (by simp [mapRequest, hsys, hsrc]) hnotFork rfl rfl
  | some se =>
      cases hdst : envid2env s cur call.a3 true with
      | none =>
          simp only [hsrc, hdst] at hrun
          cases hrun
          exact .same (by simp [mapRequest, hsys, hsrc, hdst]) hnotFork rfl rfl
      | some de =>
          simp only [hsrc, hdst] at hrun
          split at hrun
          case isTrue hva =>
              cases hrun
              exact .same (by simp only [mapRequest, hsys, hsrc, hdst]; simp [hva]) hnotFork rfl rfl
          case isFalse hva =>
              simp only [Option.bind_eq_bind, Option.bind_eq_some_iff] at hrun
              obtain ⟨srcdir, hsrcdir, found, hlookup, hrun⟩ := hrun
              have hstart : mapRequest s cur call = ((pageLookup s.phys srcdir call.a2).join.bind
                  fun place =>
                    if ¬ permOk call.a5 ∨ s.phys.load place.2.1 place.2.2 &&& pteW = 0 ∧
                        call.a5 &&& pteW ≠ 0 then none
                    else (s.envs de).pgdir.bind fun dstdir =>
                      some ⟨s.phys, de, dstdir, place.1, call.a4, call.a5⟩) := by
                simp only [mapRequest, hsys, hsrc, hdst, Option.bind_eq_bind, Option.bind_some,
                  if_neg hva, hsrcdir]
                rfl
              rw [hlookup] at hstart
              cases found with
              | none =>
                  cases hrun
                  exact .same (by simpa using hstart) hnotFork rfl rfl
              | some place =>
                  obtain ⟨pg, table, index⟩ := place
                  simp only [Option.join_some, Option.bind_some] at hstart
                  dsimp only at hrun
                  split at hrun
                  case isTrue hperm =>
                      have hbad : ¬ permOk call.a5 := hperm
                      rw [if_pos (Or.inl hbad)] at hstart
                      cases hrun
                      exact .same hstart hnotFork rfl rfl
                  case isFalse hperm =>
                      rw [not_not] at hperm
                      split at hrun
                      case isTrue hwrite =>
                          rw [if_pos (Or.inr hwrite)] at hstart
                          cases hrun
                          exact .same hstart hnotFork rfl rfl
                      case isFalse hwrite =>
                          simp only [Option.bind_eq_some_iff] at hrun
                          obtain ⟨dstdir, hdstdir, ⟨code, σ⟩, hinsert, hrun⟩ := hrun
                          have hcheck : ¬ (¬ permOk call.a5 ∨
                              s.phys.load table index &&& pteW = 0 ∧ call.a5 &&& pteW ≠ 0) := by
                            rintro (h | h)
                            · exact h hperm
                            · exact hwrite h
                          rw [if_neg hcheck, hdstdir, Option.bind_some] at hstart
                          cases hrun
                          by_cases hcode : code = 0
                          · subst hcode
                            exact .mapped _ hstart rfl hinsert rfl
                          · exact .refused _ σ hstart hcode hinsert
                              (by rw [if_neg (by rw [hsys]; decide)]; rfl) rfl

theorem sysPageUnmap_effect (hsys : call.sys = .pageUnmap)
    (hrun : sysPageUnmap s cur call.a1 call.a2 = some (ret, s')) :
    MemoryEffect s cur call ret s' := by
  have hrequest : mapRequest s cur call = none := by simp [mapRequest, hsys]
  have hnotFork : call.sys = .exofork → IsError ret := by simp [hsys]
  unfold sysPageUnmap at hrun
  split at hrun
  case isTrue =>
      cases hrun
      exact .same hrequest hnotFork rfl rfl
  case isFalse hva =>
      rw [not_or, BitVec.not_le] at hva
      split at hrun
      · cases hrun
        exact .same hrequest hnotFork rfl rfl
      case h_2 e hfound =>
          simp only [Option.bind_eq_bind, Option.bind_eq_some_iff] at hrun
          obtain ⟨dir, hdir, σ, hremove, hrun⟩ := hrun
          cases hrun
          exact .unmapped e dir hsys hfound hdir hva.1 hremove rfl

theorem sysIpcTrySend_memory (hsys : call.sys = .ipcTrySend)
    (hrun : sysIpcTrySend s cur call.a1 call.a2 call.a3 call.a4 = some (ret, s')) :
    MemoryEffect s cur call ret s' := by
  have hnotFork : call.sys = .exofork → IsError ret := by simp [hsys]
  have hdeliver : ∀ e, dirsOf (ipcDeliver s cur e call.a2) = dirsOf s := fun e =>
    dirsOf_setEnv (by rfl)
  unfold sysIpcTrySend at hrun
  cases hfound : envid2env s cur call.a1 false with
  | none =>
      simp only [hfound] at hrun
      cases hrun
      exact .same (by simp [mapRequest, hsys, hfound]) hnotFork rfl rfl
  | some e =>
      simp only [hfound] at hrun
      split at hrun
      case isTrue hrecv =>
          cases hrun
          exact .same (by simp [mapRequest, hsys, hfound, hrecv]) hnotFork rfl rfl
      case isFalse hrecv =>
          split at hrun
          case isFalse hva =>
              cases hrun
              exact .same (by simp [mapRequest, hsys, hfound, hva]) hnotFork rfl (hdeliver e)
          case isTrue hva =>
              have hfirst : ¬ ((s.envs e).ipcRecving = false ∨ ¬ call.a3 < utop) := by
                rintro (h | h)
                · exact hrecv h
                · exact h hva
              simp only [Option.bind_eq_bind, Option.bind_eq_some_iff] at hrun
              obtain ⟨srcdir, hsrcdir, found, hlookup, hrun⟩ := hrun
              have hstart : mapRequest s cur call = ((pageLookup s.phys srcdir call.a3).join.bind
                  fun place =>
                    if s.phys.load place.2.1 place.2.2 &&& call.a4 ≠ call.a4 ∨
                        (call.a4 &&& pteW ≠ 0 ∧
                          s.phys.load place.2.1 place.2.2 &&& pteW = 0) ∨
                        call.a3 ≠ roundDown call.a3 ∨ ¬ (s.envs e).ipcDstva < utop then none
                    else (s.envs e).pgdir.bind fun dstdir =>
                      some ⟨s.phys, e, dstdir, place.1, (s.envs e).ipcDstva, call.a4⟩) := by
                simp only [mapRequest, hsys, hfound, Option.bind_eq_bind, Option.bind_some,
                  if_neg hfirst, hsrcdir]
                rfl
              rw [hlookup] at hstart
              cases found with
              | none =>
                  cases hrun
                  exact .same (by simpa using hstart) hnotFork rfl rfl
              | some place =>
                  obtain ⟨pg, table, index⟩ := place
                  simp only [Option.join_some, Option.bind_some] at hstart
                  dsimp only at hrun
                  split at hrun
                  case isTrue hperm =>
                      rw [if_pos (Or.inl hperm)] at hstart
                      cases hrun
                      exact .same hstart hnotFork rfl rfl
                  case isFalse hperm =>
                      split at hrun
                      case isTrue hwrite =>
                          rw [if_pos (Or.inr (Or.inl hwrite))] at hstart
                          cases hrun
                          exact .same hstart hnotFork rfl rfl
                      case isFalse hwrite =>
                          split at hrun
                          case isTrue halign =>
                              rw [if_pos (Or.inr (Or.inr (Or.inl halign)))] at hstart
                              cases hrun
                              exact .same hstart hnotFork rfl rfl
                          case isFalse halign =>
                              split at hrun
                              case isFalse hdst =>
                                  rw [if_pos (Or.inr (Or.inr (Or.inr hdst)))] at hstart
                                  cases hrun
                                  exact .same hstart hnotFork rfl (hdeliver e)
                              case isTrue hdst =>
                                  simp only [Option.bind_eq_some_iff] at hrun
                                  obtain ⟨dstdir, hdstdir, ⟨code, σ⟩, hinsert, hrun⟩ := hrun
                                  have hcheck : ¬ (s.phys.load table index &&& call.a4 ≠ call.a4 ∨
                                      (call.a4 &&& pteW ≠ 0 ∧
                                        s.phys.load table index &&& pteW = 0) ∨
                                      call.a3 ≠ roundDown call.a3 ∨
                                      ¬ (s.envs e).ipcDstva < utop) := by
                                    rintro (h | h | h | h)
                                    · exact hperm h
                                    · exact hwrite h
                                    · exact halign h
                                    · exact h hdst
                                  rw [if_neg hcheck, hdstdir, Option.bind_some] at hstart
                                  split at hrun
                                  case isTrue hcode =>
                                      cases hrun
                                      exact .refused _ σ hstart hcode hinsert
                                        (by rw [if_neg (by rw [hsys]; decide)]; rfl) rfl
                                  case isFalse hcode =>
                                      rw [not_not] at hcode
                                      subst hcode
                                      cases hrun
                                      refine .mapped _ hstart rfl hinsert ?_
                                      rw [ipcDeliver, dirsOf_setEnv (by rfl),
                                        dirsOf_setEnv (by rfl)]
                                      rfl

theorem sysExofork_memory (hsys : call.sys = .exofork) (hrun : sysExofork s cur = (ret, s')) :
    MemoryEffect s cur call ret s' := by
  have hrequest : mapRequest s cur call = none := by simp [mapRequest, hsys]
  unfold sysExofork at hrun
  cases halloc : envAlloc s (s.envs cur).id with
  | error code =>
      rw [halloc] at hrun
      cases hrun
      exact .same hrequest (fun _ => envAlloc_error halloc) rfl rfl
  | ok result =>
      obtain ⟨e, created⟩ := result
      rw [halloc] at hrun
      cases hrun
      obtain ⟨p, hlist, hpages, rfl⟩ := envAlloc_ok halloc
      refine .forked e p hsys ?_ hlist hpages rfl ?_
      · simp only [Kernel.setEnv, update_self]
        exact not_isError_nextEnvId _ e
      · funext k
        by_cases hk : k = e
        · subst hk
          simp [dirsOf, newEnv]
        · simp [dirsOf, update_of_ne hk]

theorem sysEnvSetStatus_memory {envid status : Word}
    (hrun : sysEnvSetStatus s cur envid status = (ret, s')) :
    s'.phys = s.phys ∧ dirsOf s' = dirsOf s := by
  unfold sysEnvSetStatus at hrun
  split at hrun
  · cases hrun
    exact ⟨rfl, rfl⟩
  · split at hrun
    · cases hrun
      exact ⟨rfl, rfl⟩
    · cases hrun
      exact ⟨rfl, dirsOf_setEnv (by rfl)⟩

theorem sysEnvSetPgfaultUpcall_memory {envid func : Word}
    (hrun : sysEnvSetPgfaultUpcall s cur envid func = (ret, s')) :
    s'.phys = s.phys ∧ dirsOf s' = dirsOf s := by
  unfold sysEnvSetPgfaultUpcall at hrun
  split at hrun
  · cases hrun
    exact ⟨rfl, rfl⟩
  · cases hrun
    exact ⟨rfl, dirsOf_setEnv (by rfl)⟩

theorem sysIpcRecv_memory {dstva : Word} (hrun : sysIpcRecv s cur dstva = (ret, s')) :
    s'.phys = s.phys ∧ dirsOf s' = dirsOf s := by
  unfold sysIpcRecv at hrun
  split at hrun
  · cases hrun
    exact ⟨rfl, rfl⟩
  · cases hrun
    exact ⟨rfl, dirsOf_setEnv (by rfl)⟩

/-- Every returning call has one of the listed effects on memory. -/
theorem plainCall_memory {key : Word} (hrun : plainCall s cur key call = some (ret, s')) :
    MemoryEffect s cur call ret s' := by
  have hother : ∀ h : mapRequest s cur call = none, ∀ hsys : call.sys ≠ .exofork,
      s'.phys = s.phys → dirsOf s' = dirsOf s → MemoryEffect s cur call ret s' :=
    fun h hsys hphys hdirs => .same h (fun hfork => absurd hfork hsys) hphys hdirs
  unfold plainCall at hrun
  cases hsys : call.sys with
  | cputs => simp [hsys] at hrun
  | envDestroy => simp [hsys] at hrun
  | yield => simp [hsys] at hrun
  | cgetc =>
      simp only [hsys] at hrun
      cases hrun
      exact hother (by simp [mapRequest, hsys]) (by simp [hsys]) rfl rfl
  | getenvid =>
      simp only [hsys] at hrun
      cases hrun
      exact hother (by simp [mapRequest, hsys]) (by simp [hsys]) rfl rfl
  | exofork =>
      simp only [hsys] at hrun
      exact sysExofork_memory hsys (Option.some.inj hrun)
  | pageAlloc =>
      simp only [hsys] at hrun
      exact sysPageAlloc_effect hsys hrun
  | pageMap =>
      simp only [hsys] at hrun
      exact sysPageMap_effect hsys hrun
  | pageUnmap =>
      simp only [hsys] at hrun
      exact sysPageUnmap_effect hsys hrun
  | ipcTrySend =>
      simp only [hsys] at hrun
      exact sysIpcTrySend_memory hsys hrun
  | envSetStatus =>
      simp only [hsys] at hrun
      obtain ⟨hphys, hdirs⟩ := sysEnvSetStatus_memory (Option.some.inj hrun)
      exact hother (by simp [mapRequest, hsys]) (by simp [hsys]) hphys hdirs
  | envSetPgfaultUpcall =>
      simp only [hsys] at hrun
      obtain ⟨hphys, hdirs⟩ := sysEnvSetPgfaultUpcall_memory (Option.some.inj hrun)
      exact hother (by simp [mapRequest, hsys]) (by simp [hsys]) hphys hdirs
  | ipcRecv =>
      simp only [hsys] at hrun
      obtain ⟨hphys, hdirs⟩ := sysIpcRecv_memory (Option.some.inj hrun)
      exact hother (by simp [mapRequest, hsys]) (by simp [hsys]) hphys hdirs
  | changePr =>
      simp only [hsys] at hrun
      cases hrun
      exact hother (by simp [mapRequest, hsys]) (by simp [hsys]) rfl (dirsOf_setEnv (by rfl))

end Handlers

/-! ## Where requests come from -/

section Sources

variable {s : Kernel} {cur : Slot} {call : Call} {req : MapRequest}

/-- `sys_page_alloc` maps the first free page. -/
theorem mapRequest_alloc (hsys : call.sys = .pageAlloc) (hreq : mapRequest s cur call = some req) :
    s.phys.pageFreeList = some req.page ∧ envid2env s cur call.a1 true = some req.target ∧
      (s.envs req.target).pgdir = some req.dir ∧ req.va < utop ∧
      req.memory = (takePage s.phys req.page true).incRef req.page ∧
      req.va = call.a2 ∧ req.perm = call.a3 := by
  simp only [mapRequest, hsys, Option.bind_eq_bind, Option.bind_eq_some_iff] at hreq
  obtain ⟨e, hfound, hreq⟩ := hreq
  split at hreq
  · cases hreq
  case isFalse hcheck =>
      rw [not_or, BitVec.not_le] at hcheck
      simp only [Option.bind_eq_some_iff] at hreq
      obtain ⟨pg, hhead, dir, hdir, hreq⟩ := hreq
      cases hreq
      exact ⟨hhead, hfound, hdir, hcheck.1, rfl, rfl, rfl⟩

/-- A mapping of the page that `page_lookup` finds at `va` of space `e`. -/
structure SharedFrom (s : Kernel) (e : Slot) (va : Word) (req : MapRequest) (entry : Word) :
    Prop where
  source : ∃ srcdir table index, (s.envs e).pgdir = some srcdir ∧ va < utop ∧
    pageLookup s.phys srcdir va = some (some (req.page, (table, index))) ∧
    entry = s.phys.load table index
  memory : req.memory = s.phys
  dir : (s.envs req.target).pgdir = some req.dir
  va_lt : req.va < utop

theorem mapRequest_map (hsys : call.sys = .pageMap) (hreq : mapRequest s cur call = some req) :
    ∃ se entry, envid2env s cur call.a1 true = some se ∧
      envid2env s cur call.a3 true = some req.target ∧
      SharedFrom s se call.a2 req entry ∧ req.va = call.a4 ∧ req.perm = call.a5 := by
  simp only [mapRequest, hsys, Option.bind_eq_bind, Option.bind_eq_some_iff] at hreq
  obtain ⟨se, hsrc, de, hdst, hreq⟩ := hreq
  split at hreq
  · cases hreq
  case isFalse hcheck =>
      rw [not_or, not_or, BitVec.not_le, BitVec.not_le] at hcheck
      simp only [Option.bind_eq_some_iff] at hreq
      obtain ⟨srcdir, hsrcdir, ⟨pg, table, index⟩, hlookup, hreq⟩ := hreq
      dsimp only at hreq
      split at hreq
      · cases hreq
      · simp only [Option.bind_eq_some_iff] at hreq
        obtain ⟨dstdir, hdstdir, hreq⟩ := hreq
        cases hreq
        exact ⟨se, _, hsrc, hdst, ⟨⟨srcdir, table, index, hsrcdir, hcheck.1,
          Option.join_eq_some_iff.mp hlookup, rfl⟩, rfl, hdstdir, hcheck.2.1⟩, rfl, rfl⟩

theorem mapRequest_send (hsys : call.sys = .ipcTrySend) (hreq : mapRequest s cur call = some req) :
    ∃ entry, envid2env s cur call.a1 false = some req.target ∧
      SharedFrom s cur call.a3 req entry ∧ (s.envs req.target).ipcRecving = true ∧
      req.va = (s.envs req.target).ipcDstva ∧ req.perm = call.a4 ∧
      entry &&& req.perm = req.perm := by
  simp only [mapRequest, hsys, Option.bind_eq_bind, Option.bind_eq_some_iff] at hreq
  obtain ⟨e, hfound, hreq⟩ := hreq
  split at hreq
  · cases hreq
  case isFalse hfirst =>
      rw [not_or, not_not, Bool.not_eq_false] at hfirst
      simp only [Option.bind_eq_some_iff] at hreq
      obtain ⟨srcdir, hsrcdir, ⟨pg, table, index⟩, hlookup, hreq⟩ := hreq
      dsimp only at hreq
      split at hreq
      · cases hreq
      case isFalse hcheck =>
          rw [not_or, not_or, not_or, not_not, not_not] at hcheck
          simp only [Option.bind_eq_some_iff] at hreq
          obtain ⟨dstdir, hdstdir, hreq⟩ := hreq
          cases hreq
          exact ⟨_, hfound, ⟨⟨srcdir, table, index, hsrcdir, hfirst.2,
            Option.join_eq_some_iff.mp hlookup, rfl⟩, rfl, hdstdir, not_not.mp hcheck.2.2.2⟩,
            hfirst.1, rfl, rfl, hcheck.1⟩

/-- Only three calls map pages. -/
theorem mapRequest_sys (hreq : mapRequest s cur call = some req) :
    call.sys = .pageAlloc ∨ call.sys = .pageMap ∨ call.sys = .ipcTrySend := by
  unfold mapRequest at hreq
  split at hreq
  · exact Or.inl ‹_›
  · exact Or.inr (Or.inl ‹_›)
  · exact Or.inr (Or.inr ‹_›)
  · cases hreq

end Sources

end OsLabs.Jos
