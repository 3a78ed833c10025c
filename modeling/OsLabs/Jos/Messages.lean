import OsLabs.Jos.Scripts

/-!
# What a receiver learns about a message

`sys_ipc_try_send` leaves the message in the `env_ipc` fields of the receiver,
where `ipc_recv` of the user library reads them.
-/

namespace OsLabs.Jos

open Function
open OsLabs.Transition

/-- What `ipc_recv` (`lib/ipc.c`) stores through its arguments and returns. -/
structure IpcResult where
  fromEnvStore : Word
  permStore : Word
  value : Word

/-- `ipc_recv`, once `sys_ipc_recv` has returned `ret`; `env` is `*thisenv`. -/
def ipcRecv (env : Env) (ret : Word) : IpcResult :=
  if ret ≠ 0 then ⟨0, 0, ret⟩ else ⟨env.ipcFrom, env.ipcPerm, env.ipcValue⟩

/-- A call of `sys_ipc_try_send`. -/
def sendCall (envid value srcva perm : Word) : Call := ⟨.ipcTrySend, envid, value, srcva, perm, 0⟩

/-- The send gets as far as mapping a page for the receiver. -/
def MapsPage (s : Kernel) (cur : Slot) (call : Call) : Prop := (mapRequest s cur call).isSome

instance (s : Kernel) (cur : Slot) (call : Call) : Decidable (MapsPage s cur call) :=
  inferInstanceAs (Decidable (_ = true))

/-- The fields of receiver `e` describe the message that `cur` sent it, and so
does what `ipc_recv` makes of them. -/
structure Described (s s' : Kernel) (cur e : Slot) (call : Call) : Prop where
  recving : (s'.envs e).ipcRecving = false
  sender : (s'.envs e).ipcFrom = (s.envs cur).id
  value : (s'.envs e).ipcValue = call.a2
  perm : (s'.envs e).ipcPerm = if MapsPage s cur call then call.a4 else 0
  stored : (ipcRecv (s'.envs e) 0).permStore ≠ 0 ↔ MapsPage s cur call

section Sends

variable {s s' : Kernel} {cur e : Slot} {envid value srcva perm : Word}

theorem ipcDeliver_receiver (s : Kernel) (cur e : Slot) (value : Word) :
    (ipcDeliver s cur e value).envs e = { s.envs e with
      ipcRecving := false
      ipcFrom := (s.envs cur).id
      ipcValue := value
      status := .runnable
      tf := (s.envs e).tf.setEax 0 } :=
  update_self _ _ _

/-- What a successful send leaves in the receiver's fields: the permissions of
an earlier message, when it maps no page. -/
theorem sysIpcTrySend_receiver (hfound : envid2env s cur envid false = some e)
    (hsend : sysIpcTrySend s cur envid value srcva perm = some (0, s')) :
    (s'.envs e).ipcRecving = false ∧ (s'.envs e).ipcFrom = (s.envs cur).id ∧
      (s'.envs e).ipcValue = value ∧ (s'.envs e).ipcPerm =
        if MapsPage s cur (sendCall envid value srcva perm) then perm else (s.envs e).ipcPerm := by
  have hplain : mapRequest s cur (sendCall envid value srcva perm) = none →
      s' = ipcDeliver s cur e value → (s'.envs e).ipcRecving = false ∧
      (s'.envs e).ipcFrom = (s.envs cur).id ∧ (s'.envs e).ipcValue = value ∧
      (s'.envs e).ipcPerm =
        if MapsPage s cur (sendCall envid value srcva perm) then perm else (s.envs e).ipcPerm := by
    rintro hnone rfl
    have hnot : ¬ MapsPage s cur (sendCall envid value srcva perm) := by
      rw [MapsPage, hnone]
      decide
    rw [if_neg hnot, ipcDeliver_receiver]
    exact ⟨rfl, rfl, rfl, rfl⟩
  unfold sysIpcTrySend at hsend
  simp only [hfound] at hsend
  split at hsend
  · cases hsend
  case isFalse hrecv =>
    split at hsend
    case isFalse hva =>
      cases hsend
      exact hplain (by simp [mapRequest, sendCall, hfound, hva]) rfl
    case isTrue hva =>
      have hfirst : ¬ ((s.envs e).ipcRecving = false ∨ ¬ srcva < utop) :=
        not_or.mpr ⟨hrecv, not_not.mpr hva⟩
      simp only [Option.bind_eq_bind, Option.bind_eq_some_iff] at hsend
      obtain ⟨srcdir, hsrcdir, found, hlookup, hsend⟩ := hsend
      have hstart : mapRequest s cur (sendCall envid value srcva perm) =
          ((pageLookup s.phys srcdir srcva).join.bind fun place =>
            if s.phys.load place.2.1 place.2.2 &&& perm ≠ perm ∨
                (perm &&& pteW ≠ 0 ∧ s.phys.load place.2.1 place.2.2 &&& pteW = 0) ∨
                srcva ≠ roundDown srcva ∨ ¬ (s.envs e).ipcDstva < utop then none
            else (s.envs e).pgdir.bind fun dstdir =>
              some ⟨s.phys, e, dstdir, place.1, (s.envs e).ipcDstva, perm⟩) := by
        simp only [mapRequest, sendCall, hfound, Option.bind_eq_bind, Option.bind_some,
          if_neg hfirst, hsrcdir]
        rfl
      rw [hlookup] at hstart
      cases found with
      | none => cases hsend
      | some place =>
        obtain ⟨pg, table, index⟩ := place
        simp only [Option.join_some, Option.bind_some] at hstart
        dsimp only at hsend
        split at hsend
        · cases hsend
        case isFalse hperm =>
          split at hsend
          · cases hsend
          case isFalse hwrite =>
            split at hsend
            · cases hsend
            case isFalse halign =>
              split at hsend
              case isFalse hdst =>
                rw [if_pos (Or.inr (Or.inr (Or.inr hdst)))] at hstart
                cases hsend
                exact hplain hstart rfl
              case isTrue hdst =>
                simp only [Option.bind_eq_some_iff] at hsend
                obtain ⟨dstdir, hdstdir, ⟨code, σ⟩, -, hsend⟩ := hsend
                have hcheck : ¬ (s.phys.load table index &&& perm ≠ perm ∨
                    (perm &&& pteW ≠ 0 ∧ s.phys.load table index &&& pteW = 0) ∨
                    srcva ≠ roundDown srcva ∨ ¬ (s.envs e).ipcDstva < utop) :=
                  not_or.mpr ⟨hperm, not_or.mpr ⟨hwrite, not_or.mpr ⟨halign, not_not.mpr hdst⟩⟩⟩
                rw [if_neg hcheck, hdstdir, Option.bind_some] at hstart
                have hmaps : MapsPage s cur (sendCall envid value srcva perm) := by
                  rw [MapsPage, hstart]
                  rfl
                split at hsend
                case isTrue hcode =>
                  cases hsend
                  exact absurd rfl hcode
                case isFalse =>
                  cases hsend
                  rw [if_pos hmaps, ipcDeliver_receiver]
                  refine ⟨rfl, ?_, rfl, ?_⟩
                  · exact field_update Env.id (by rfl) cur
                  · simp [Kernel.setEnv]

/-- After a successful send the fields of the receiver describe the message
exactly when it maps a page with some permissions, or maps none and finds none
of an earlier message. -/
theorem described_iff (hfound : envid2env s cur envid false = some e)
    (hsend : sysIpcTrySend s cur envid value srcva perm = some (0, s')) :
    Described s s' cur e (sendCall envid value srcva perm) ↔
      if MapsPage s cur (sendCall envid value srcva perm) then perm ≠ 0
      else (s.envs e).ipcPerm = 0 := by
  obtain ⟨hrecving, hsender, hvalue, hperm⟩ := sysIpcTrySend_receiver hfound hsend
  have hstored : (ipcRecv (s'.envs e) 0).permStore = (s'.envs e).ipcPerm := rfl
  by_cases hmaps : MapsPage s cur (sendCall envid value srcva perm)
  · rw [if_pos hmaps] at hperm ⊢
    constructor
    · intro hdescribed
      rw [← hperm, ← hstored]
      exact hdescribed.stored.mpr hmaps
    · intro hnonzero
      exact ⟨hrecving, hsender, hvalue, hperm.trans (if_pos hmaps).symm, by
        rw [hstored, hperm]
        exact iff_of_true hnonzero hmaps⟩
  · rw [if_neg hmaps] at hperm ⊢
    constructor
    · intro hdescribed
      rw [← hperm, hdescribed.perm, if_neg hmaps]
    · intro hzero
      exact ⟨hrecving, hsender, hvalue, (hperm.trans hzero).trans (if_neg hmaps).symm, by
        rw [hstored, hperm]
        exact iff_of_false (not_not.mpr hzero) hmaps⟩

end Sends

/-! ## Runs -/

/-- After a successful send the fields of the receiver describe the message. -/
def SendsDescribed (_ : ℕ) (s : Kernel) (cur : Slot) (call : Call) : Prop :=
  call.sys = .ipcTrySend → ∀ e s', envid2env s cur call.a1 false = some e →
    plainCall s cur 0 call = some (0, s') → Described s s' cur e call

/-- A successful send maps a page with some permissions, or it maps none and its receiver's
`env_ipc_perm` is 0 already. -/
def SendsFresh (_ : ℕ) (s : Kernel) (cur : Slot) (call : Call) : Prop :=
  call.sys = .ipcTrySend → ∀ e s', envid2env s cur call.a1 false = some e →
    plainCall s cur 0 call = some (0, s') →
      if MapsPage s cur call then call.a4 ≠ 0 else (s.envs e).ipcPerm = 0

theorem sendsDescribed_iff (c : ℕ) (s : Kernel) (cur : Slot) (call : Call) :
    SendsDescribed c s cur call ↔ SendsFresh c s cur call := by
  refine forall_congr' fun hsys => forall₂_congr fun e s' => forall₂_congr fun hfound hrun => ?_
  have hsend : sysIpcTrySend s cur call.a1 call.a2 call.a3 call.a4 = some (0, s') := by
    rwa [plainCall, hsys] at hrun
  have hiff := described_iff hfound hsend
  have hmaps : MapsPage s cur (sendCall call.a1 call.a2 call.a3 call.a4) ↔ MapsPage s cur call := by
    rw [MapsPage, MapsPage, mapRequest, mapRequest, hsys]
    rfl
  have hperm : (if MapsPage s cur (sendCall call.a1 call.a2 call.a3 call.a4)
      then call.a4 else 0) = if MapsPage s cur call then call.a4 else 0 := by
    simp only [hmaps]
  have hdescribed : Described s s' cur e (sendCall call.a1 call.a2 call.a3 call.a4) ↔
      Described s s' cur e call :=
    ⟨fun h => ⟨h.recving, h.sender, h.value, h.perm.trans hperm, h.stored.trans hmaps⟩,
      fun h => ⟨h.recving, h.sender, h.value, h.perm.trans hperm.symm, h.stored.trans hmaps.symm⟩⟩
  rw [← hdescribed, hiff]
  simp only [hmaps]

/-- Along every run the messages are described exactly when every successful send of the run maps a
page with some permissions or finds no permissions of an earlier message. -/
theorem messages_described (start : Kernel) (events : List Event) :
    Along step (CallsSatisfy SendsDescribed) start events ↔
      Along step (CallsSatisfy SendsFresh) start events :=
  along_congr (fun _ _ => forall₂_congr fun c before => forall₂_congr fun cur call =>
    forall_congr' fun _ => sendsDescribed_iff c before cur call) start events

/-! ## A message without a page after one with a page -/

/-- Where the second environment receives the page. -/
def pageVa : Word := stackVa - pgSize

/-- The `envid_t` of the second environment. -/
def secondId : Word := nextEnvId 0 secondSlot

theorem envid2env_second {s : Kernel} (cur : Slot) (hstatus : (s.envs secondSlot).status ≠ .free)
    (hid : (s.envs secondSlot).id = secondId) : envid2env s cur secondId false = some secondSlot := by
  have hslot : envx secondId = secondSlot := by decide
  have hnonzero : secondId ≠ 0 := by decide
  rw [envid2env, if_neg hnonzero]
  simp [hslot, hstatus, hid]

/-- The entry for a stack grants what the message asks for. -/
theorem loadEntry_grants (pg : ℕ) : loadEntry pg &&& (pteP ||| pteU) = pteP ||| pteU := by
  rw [loadEntry, BitVec.or_assoc, BitVec.and_or_distrib_right,
    aligned_and_flags (pteAddr_page2pa pg) (by decide)]
  decide

/-- The first environment sends its stack page. -/
theorem Idle.sends {m : Machine} {spare : ℕ} {booted t : Kernel} (hidle : Idle m 2 spare booted)
    (hphys : t.phys = booted.phys) (hdirs : dirsOf t = dirsOf booted)
    (hstatus : (t.envs secondSlot).status ≠ .free) (hid : (t.envs secondSlot).id = secondId)
    (hrecving : (t.envs secondSlot).ipcRecving = true)
    (hdst : (t.envs secondSlot).ipcDstva = pageVa) (value : Word) :
    ∃ σ, plainCall t firstSlot 0 (sendCall secondId value stackVa (pteP ||| pteU)) =
      some (0, ipcDeliver ((t.setPhys σ).setEnv secondSlot
        { t.envs secondSlot with ipcPerm := pteP ||| pteU }) firstSlot secondSlot value) := by
  obtain ⟨pool, base, given, free, -, -, hspaces⟩ := hidle.memory
  obtain ⟨pg, hword, hslot⟩ := hidle.stack firstSlot (by decide)
  obtain ⟨pg', -, hslot'⟩ := hidle.stack secondSlot (by decide)
  obtain ⟨table, htable⟩ := table_of_pte hslot
  obtain ⟨table', htable'⟩ := table_of_pte hslot'
  obtain ⟨dir, hdir⟩ : ∃ dir, dirsOf booted firstSlot = some dir := by
    obtain ⟨dir, henv⟩ := hidle.env firstSlot (by decide)
    exact ⟨dir, by rw [dirsOf, henv]; rfl⟩
  obtain ⟨dir', hdir'⟩ : ∃ dir, dirsOf booted secondSlot = some dir := by
    obtain ⟨dir, henv⟩ := hidle.env secondSlot (by decide)
    exact ⟨dir, by rw [dirsOf, henv]; rfl⟩
  have hstack : stackVa < utop := by decide
  have hpage : pageVa < utop := by decide
  have hlookup := pageLookup_some hspaces.paged hdir hstack htable hslot
  obtain ⟨hpool, hfree, hnot⟩ := hspaces.mapped hstack hslot
  have hlt := lt_of_lt_of_le (hspaces.paged.pool_lt pg hpool) hspaces.paged.npages_le
  have hentry : entryPage (page2pa pg ||| (pteP ||| pteU) ||| pteP) = some pg :=
    entryPage_entry hlt (pteAddr_page2pa_or (by decide))
  have hempty : tableSlot booted.phys (dirsOf booted) (pteKey secondSlot pageVa) = none :=
    hidle.alone secondSlot _ _ (pdx_lt_userPdes hpage) (ptx_lt pageVa) (by decide)
  have hsameTable : pdx pageVa = pdx stackVa := by decide
  obtain ⟨hnone, -⟩ | ⟨σ, free', hinsert, -⟩ := pageInsert_spec hspaces.paged hdir' hpage hpool hfree
    hnot hentry (fun old hold => by rw [hempty] at hold; cases hold) (by simp)
  · rw [hsameTable, htable'] at hnone
    cases hnone
  have hgrants : booted.phys.load table (ptx stackVa) &&& (pteP ||| pteU) = pteP ||| pteU := by
    rw [pteKey, wordAt_pte htable] at hword
    rw [load_and _ _ _ (by decide), hword, loadEntry_grants]
  refine ⟨σ, ?_⟩
  change sysIpcTrySend t firstSlot secondId value stackVa (pteP ||| pteU) = _
  have hsrc : (t.envs firstSlot).pgdir = some dir := (congrFun hdirs firstSlot).trans hdir
  have hdst' : (t.envs secondSlot).pgdir = some dir' := (congrFun hdirs secondSlot).trans hdir'
  have haligned : stackVa = roundDown stackVa := by decide
  have hreadonly : ¬ ((pteP ||| pteU) &&& pteW ≠ 0 ∧
      booted.phys.load table (ptx stackVa) &&& pteW = 0) := fun h => h.1 (by decide)
  simp only [sysIpcTrySend, envid2env_second firstSlot hstatus hid, hrecving, Bool.true_eq_false,
    if_false, if_pos hstack, hsrc, hphys, hlookup, Option.bind_eq_bind, Option.bind_some, hgrants,
    ne_eq, not_true_eq_false, hdst, if_pos hpage, hdst', hinsert]
  rw [if_neg hreadonly, if_neg (not_not.mpr haligned)]
  rfl

theorem callOf_callEntry {s : Kernel} {cur : Slot} (hcur : s.curenv 0 = some cur)
    (halive : (s.envs cur).status ≠ .dying) (call : Call) :
    callOf s (.enter 0 (callEntry call)) = some (0, s.setTf cur (callFrame call), cur, call) := by
  have htrap : trapCall (callFrame call) = some call := by
    rw [trapCall]
    simp [callFrame, Sys.decode_number]
  simp only [callOf, callEntry, hcur, if_neg halive, htrap, Option.map_some]

/-- The second environment has got a page with its last message, and waits for one without. -/
structure GotPage (t : Kernel) : Prop where
  perm : (t.envs secondSlot).ipcPerm = pteP ||| pteU
  recving : (t.envs secondSlot).ipcRecving = true
  id : (t.envs secondSlot).id = secondId
  status : (t.envs secondSlot).status = .notRunnable

theorem reaches_gotPage : ∃ booted events s t, Boots uniprocessor [idleProgram, idleProgram] booted ∧
    execute step booted events = some s ∧ Acting s firstSlot t ∧ GotPage t := by
  obtain ⟨booted, hboots, hidle⟩ := uniprocessor_idle
  have hne' := first_ne_second.symm
  obtain ⟨s₀, hstep₀, hacting₀⟩ := hidle.acts (by decide)
  have htwo₀ := hidle.two.first_status .running
  obtain ⟨s₁, hstep₁, hacting₁⟩ := htwo₀.tick hacting₀
  have htwo₁ := htwo₀.goesOn
  obtain ⟨s₂, hstep₂, hacting₂⟩ := htwo₁.recv hacting₁ pageVa fun _ => by decide
  have htwo₂ := htwo₁.firstGoesOn pageVa
  -- the first environment sends its page
  obtain ⟨t₂, ht₂⟩ : ∃ t₂, t₂ = firstGoesOn (secondGoesOn (booted.setStatus firstSlot .running))
      pageVa := ⟨_, rfl⟩
  obtain ⟨dir, hsecond⟩ := hidle.env secondSlot (by decide)
  rw [← ht₂] at hacting₂ htwo₂
  have henv₂ : t₂.envs secondSlot = { booted.envs secondSlot with
      ipcRecving := true, status := .notRunnable, ipcDstva := pageVa } := by
    rw [ht₂]
    simp [firstGoesOn, secondWaits, secondGoesOn, Kernel.setStatus, update_of_ne hne']
  have hid : (booted.envs secondSlot).id = secondId := by
    rw [hsecond]
    rfl
  have hdirs : dirsOf t₂ = dirsOf booted := by
    funext k
    rw [ht₂]
    by_cases hfirst : k = firstSlot <;> by_cases hother : k = secondSlot <;>
      simp [dirsOf, firstGoesOn, secondWaits, secondGoesOn, Kernel.setStatus, hfirst, hother,
        first_ne_second, hne']
  have hphys : t₂.phys = booted.phys := by
    rw [ht₂]
    rfl
  obtain ⟨σ, hsend⟩ := hidle.sends hphys hdirs (by rw [htwo₂.second]; decide) (by rw [henv₂, hid])
    (by rw [henv₂]) (by rw [henv₂]) 1
  obtain ⟨s₃, hstep₃, hacting₃⟩ := hacting₂.call hsend (by
    simp [ipcDeliver, update_of_ne first_ne_second, htwo₂.first])
  have hmoved : Two (t₂.setPhys σ) .running .notRunnable :=
    ⟨htwo₂.first, htwo₂.second, htwo₂.others, htwo₂.firstDir, htwo₂.secondDir, htwo₂.pr⟩
  obtain ⟨t₃, ht₃⟩ : ∃ t₃, t₃ = ipcDeliver ((t₂.setPhys σ).setEnv secondSlot
    { t₂.envs secondSlot with ipcPerm := pteP ||| pteU }) firstSlot secondSlot 1 := ⟨_, rfl⟩
  rw [← ht₃] at hacting₃
  have hstored : Two ((t₂.setPhys σ).setEnv secondSlot
      { t₂.envs secondSlot with ipcPerm := pteP ||| pteU }) .running .notRunnable :=
    hmoved.setSecond htwo₂.second htwo₂.secondDir (htwo₂.pr secondSlot)
  have htwo₃ : Two t₃ .running .runnable := by
    rw [ht₃]
    exact hstored.setSecond rfl hstored.secondDir (hstored.pr secondSlot)
  have henv₃ : (t₃.envs secondSlot).ipcPerm = (pteP ||| pteU) ∧
      (t₃.envs secondSlot).id = secondId := by
    rw [ht₃, ipcDeliver_receiver]
    simp [henv₂, hid]
  -- the second environment waits again
  obtain ⟨s₄, hstep₄, hacting₄⟩ := htwo₃.tick hacting₃
  obtain ⟨s₅, hstep₅, hacting₅⟩ := htwo₃.goesOn.recv hacting₄ utop fun h => absurd h (by decide)
  have htwo₅ := htwo₃.goesOn.firstGoesOn utop
  have hstart : execute step booted [] = some booted := rfl
  have hrun₂ := execute_concat (execute_concat (execute_concat hstart hstep₀) hstep₁) hstep₂
  have hrun₅ := execute_concat (execute_concat (execute_concat hrun₂ hstep₃) hstep₄) hstep₅
  refine ⟨booted, _, s₅, _, hboots, hrun₅, hacting₅,
    { perm := ?_, recving := ?_, id := ?_, status := htwo₅.second }⟩
  · simp [firstGoesOn, secondWaits, secondGoesOn, Kernel.setStatus, update_of_ne hne', henv₃]
  · simp [firstGoesOn, secondWaits, secondGoesOn, Kernel.setStatus, update_of_ne hne']
  · simp [firstGoesOn, secondWaits, secondGoesOn, Kernel.setStatus, update_of_ne hne', henv₃]

/-- A message without a page. -/
theorem GotPage.sends {t : Kernel} (hgot : GotPage t) (value : Word) :
    plainCall t firstSlot 0 (sendCall secondId value utop 0) =
      some (0, ipcDeliver t firstSlot secondSlot value) := by
  have hstatus : (t.envs secondSlot).status ≠ .free := by simp [hgot.status]
  change sysIpcTrySend t firstSlot secondId value utop 0 = _
  simp [sysIpcTrySend, envid2env_second firstSlot hstatus hgot.id, hgot.recving]

/-- A send that maps no page leaves the permissions of the message before it. -/
theorem stale_perm : ∃ booted events s, Boots uniprocessor [idleProgram, idleProgram] booted ∧
    execute step booted events = some s ∧
    ¬ Along step (CallsSatisfy SendsDescribed) booted events := by
  obtain ⟨booted, events, s, t, hboots, hexecute, hacting, hgot⟩ := reaches_gotPage
  obtain ⟨s', hstep, -⟩ := hacting.call (hgot.sends 2) (by
    simp [ipcDeliver, update_of_ne first_ne_second, hacting.running])
  refine ⟨booted, _, s', hboots, execute_concat hexecute hstep, fun halong => ?_⟩
  have halive : (s.envs firstSlot).status ≠ .dying := by
    rw [status_of_rest hacting.rest, hacting.running]
    decide
  obtain ⟨u, hu⟩ : ∃ u, u = s.setTf firstSlot (callFrame (sendCall secondId 2 utop 0)) := ⟨_, rfl⟩
  have hcall := callOf_callEntry hacting.onCpu halive (sendCall secondId 2 utop 0)
  rw [← hu] at hcall
  have hsecond : (u.envs secondSlot).resting = (t.envs secondSlot).resting := by
    rw [hu]
    exact envs_of_rest ((resting_setTf _ _ _).trans hacting.rest) secondSlot
  have hgot' : GotPage u :=
    { perm := (congrArg Env.ipcPerm hsecond).trans hgot.perm
      recving := (congrArg Env.ipcRecving hsecond).trans hgot.recving
      id := (congrArg Env.id hsecond).trans hgot.id
      status := (congrArg Env.status hsecond).trans hgot.status }
  have hfound := envid2env_second firstSlot (by rw [hgot'.status]; decide) hgot'.id
  have hdescribed := halong.last hexecute 0 u firstSlot _ hcall rfl secondSlot _ hfound
    (hgot'.sends 2)
  have hnopage : ¬ MapsPage u firstSlot (sendCall secondId 2 utop 0) := by
    rw [MapsPage, mapRequest]
    simp [sendCall]
  have hperm := hdescribed.perm
  rw [if_neg hnopage, ipcDeliver_receiver, hgot'.perm] at hperm
  exact absurd hperm (by decide)

end OsLabs.Jos
