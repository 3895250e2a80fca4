/-
RediGo.Core.CMSCommands — sketches under the commands of the server.

No command takes a sketch away, changes its size or lowers a counter
(`executeAndResponse_keepsSketches`), so whether `CMS.INCRBY` and `CMS.QUERY`
can fail on a key is settled when `CMS.INITBYDIM` has stored its sketch
(`sketch_usable_iff`). The widths and heights it accepts are any integers,
and it converts them to `uint64`: a width of zero, and a product that wraps
around to a small number of counters, are answered with `OK`.

`CMS.INCRBY` parses and counts item by item. It stops at the first increment
that is no number, with what came before it counted (`incrby_atomic_iff`).
-/
import RediGo.Core.CommandFrames
import RediGo.Core.Replies
import RediGo.Probabilistic.CMSRange

namespace RediGo.Core

open RediGo.Go RediGo.HashTable RediGo.Probabilistic

/-! ## The loop of `CMS.INCRBY` -/

section Loop

variable {hash : ItemHash} {firstItem : Bytes} {args res : List Bytes} {cms cms' : CMS}
  {reply : Bytes}

/-- What the loop does with its first item. -/
theorem incrLoop_cons {item valueArg : Bytes}
    (h : incrLoop hash firstItem (item :: valueArg :: args) cms res = .ok (reply, cms')) :
    (parseUint valueArg = none ∧ IsError reply ∧ cms' = cms) ∨
      ∃ value count cms₁ res', parseUint valueArg = some value ∧
        cms.incrBy hash item value = .ok (count, cms₁) ∧
        incrLoop hash firstItem args cms₁ res' = .ok (reply, cms') := by
  unfold incrLoop at h
  cases hparse : parseUint valueArg with
  | none =>
    rw [hparse] at h
    cases h
    exact .inl ⟨rfl, isError_error _, rfl⟩
  | some value =>
    rw [hparse] at h
    obtain ⟨⟨count, cms₁⟩, hincr, h⟩ := bind_eq_ok h
    exact .inr ⟨value, count, cms₁, _, rfl, hincr, h⟩

theorem isError_incrLoop_iff (h : incrLoop hash firstItem args cms res = .ok (reply, cms')) :
    IsError reply ↔ ∃ value ∈ increments args, parseUint value = none := by
  induction args using List.twoStepInduction generalizing cms res with
  | nil =>
    cases h
    simp [increments, not_isError_strs]
  | singleton => cases h
  | cons_cons item valueArg args ih _ =>
    rcases incrLoop_cons h with ⟨hparse, herror, -⟩ | ⟨value, count, cms₁, res', hparse, -, hloop⟩
    · simp [increments, hparse, herror]
    · simp [increments, hparse, ih hloop]

theorem extends_incrLoop (h : incrLoop hash firstItem args cms res = .ok (reply, cms')) :
    cms.Extends cms' := by
  induction args using List.twoStepInduction generalizing cms res with
  | nil =>
    cases h
    exact .refl _
  | singleton => cases h
  | cons_cons item valueArg args ih _ =>
    rcases incrLoop_cons h with ⟨-, -, rfl⟩ | ⟨value, count, cms₁, res', -, hincr, hloop⟩
    · exact .refl _
    · exact (CMS.incrBy_cases hincr).1.trans (ih hloop)

/-- Every increment before the first one that is no number is idle. -/
def IdleBefore (hash : ItemHash) (cms : CMS) : List Bytes → Prop
  | item :: valueArg :: args => ∀ value, parseUint valueArg = some value →
      cms.Idle hash item value ∧ IdleBefore hash cms args
  | _ => True

/-- Counters only grow, so a later increment cannot undo an earlier one. -/
theorem incrLoop_eq_iff (h : incrLoop hash firstItem args cms res = .ok (reply, cms')) :
    cms' = cms ↔ IdleBefore hash cms args := by
  induction args using List.twoStepInduction generalizing cms res with
  | nil =>
    cases h
    simp [IdleBefore]
  | singleton => cases h
  | cons_cons item valueArg args ih _ =>
    rcases incrLoop_cons h with ⟨hparse, -, rfl⟩ | ⟨value, count, cms₁, res', hparse, hincr, hloop⟩
    · simp [IdleBefore, hparse]
    · obtain ⟨hext, hidle⟩ := CMS.incrBy_cases hincr
      simp only [IdleBefore, hparse, Option.some.injEq, forall_eq', ← hidle]
      constructor
      · intro heq
        obtain rfl : cms₁ = cms := hext.antisymm (heq ▸ extends_incrLoop hloop)
        exact ⟨rfl, (ih hloop).1 heq⟩
      · rintro ⟨rfl, hrest⟩
        exact (ih hloop).2 hrest

end Loop

section Commands

variable {Z : Type}

/-! ## Errors of `CMS.INCRBY` -/

/-- The same keys, with the same counters. -/
def SameCounters (st st' : Stores Z) : Prop :=
  ∀ key, (st'.cmsStore.lookup key).map CMS.counter = (st.cmsStore.lookup key).map CMS.counter

/-- The arguments are no key with pairs, or there is no such key, or all
increments are numbers, or those before the first that is none are idle. -/
def LeavesCounters (hash : ItemHash) (st : Stores Z) : List Bytes → Prop
  | key :: item :: rest => rest.length % 2 = 0 ∨ ∀ cms, st.cmsStore.lookup key = some cms →
      (∀ value ∈ increments (item :: rest), parseUint value ≠ none) ∨
        IdleBefore hash cms (item :: rest)
  | _ => True

theorem sameCounters_insert_iff {st : Stores Z} {key : Bytes} {cms cms' : CMS}
    (hkey : st.cmsStore.lookup key = some cms) (hext : cms.Extends cms') :
    SameCounters st { st with cmsStore := st.cmsStore.insert key cms' } ↔ cms' = cms := by
  constructor
  · intro h
    have hcounter := h key
    rw [AList.lookup_insert, hkey] at hcounter
    have hback : cms'.Extends cms := ⟨hext.width.symm, hext.depth.symm, by
      rw [Option.some.inj hcounter]
      exact .refl _⟩
    exact hext.antisymm hback
  · rintro rfl key'
    by_cases heq : key' = key
    · rw [heq, AList.lookup_insert, hkey]
    · rw [AList.lookup_insert_ne heq]

/-- A `CMS.INCRBY` that fails has changed no counter, exactly for these
arguments. -/
theorem incrby_atomic_iff (deps : Deps) (args : List Bytes) (st st' : Stores Z) (reply : Bytes)
    (h : cmdCMSINCRBY deps args st = .ok (reply, st')) :
    (IsError reply → SameCounters st st') ↔ LeavesCounters deps.hash st args := by
  unfold cmdCMSINCRBY at h
  split at h
  · rename_i key item rest
    split at h
    · rename_i harity
      cases h
      simp only [List.length_cons] at harity
      exact iff_of_true (fun _ _ => rfl) (.inl (by omega))
    · rename_i harity
      simp only [List.length_cons] at harity
      have hodd : ¬ rest.length % 2 = 0 := by omega
      split at h
      · rename_i hkey
        cases h
        exact iff_of_true (fun _ _ => rfl) (.inr fun cms hcms => by cases hkey.symm.trans hcms)
      · rename_i cms hkey
        obtain ⟨⟨reply', cms'⟩, hloop, h⟩ := bind_eq_ok h
        cases h
        rw [isError_incrLoop_iff hloop, sameCounters_insert_iff hkey (extends_incrLoop hloop),
          incrLoop_eq_iff hloop, imp_iff_not_or]
        simp [LeavesCounters, hodd, hkey]
  · rename_i hshort
    cases h
    refine iff_of_true (fun _ _ => rfl) ?_
    rcases args with _ | ⟨key, _ | ⟨item, rest⟩⟩
    · trivial
    · trivial
    · exact absurd rfl (hshort key item rest)

/-- A sketch of one counter under the key `k`. -/
def oneSketch : Stores ZSet :=
  { (Stores.init : Stores ZSet) with cmsStore := AList.insert (lit "k") (CMS.fresh 1 1) ∅ }

/-- `CMS.INCRBY k a 0 b x` -/
theorem incrby_atomic_zero :
    ∃ reply st', cmdCMSINCRBY smallDeps [lit "k", lit "a", lit "0", lit "b", lit "x"] oneSketch =
      .ok (reply, st') ∧ IsError reply ∧ SameCounters oneSketch st' := by
  have hleaves : LeavesCounters smallDeps.hash oneSketch
      [lit "k", lit "a", lit "0", lit "b", lit "x"] := by
    refine .inr fun cms _ => .inr fun value hvalue => ⟨.inl ?_, fun value hvalue => ?_⟩
    · rw [show parseUint (lit "0") = some 0 by decide] at hvalue
      exact (Option.some.inj hvalue).symm
    · rw [show parseUint (lit "x") = none by decide] at hvalue
      cases hvalue
  have herror : IsError (errorWith "increment must be a non negative integer number " (lit "a")) :=
    isError_error _
  exact ⟨_, _, rfl, herror, (incrby_atomic_iff smallDeps _ oneSketch _ _ rfl).2 hleaves herror⟩

/-- `CMS.INCRBY k a 1 b x` counts `a` and then fails. -/
theorem incrby_fails_late :
    ∃ reply st', cmdCMSINCRBY smallDeps [lit "k", lit "a", lit "1", lit "b", lit "x"] oneSketch =
      .ok (reply, st') ∧ IsError reply ∧
        (oneSketch.cmsStore.lookup (lit "k")).map CMS.counter = some [0] ∧
        (st'.cmsStore.lookup (lit "k")).map CMS.counter = some [1] :=
  ⟨_, _, rfl, isError_error _, by decide, by decide⟩

/-! ## Sketches under all commands -/

/-- Every sketch is still there, of the same size and with no counter
smaller. -/
def KeepsSketches (st st' : Stores Z) : Prop :=
  ∀ key cms, st.cmsStore.lookup key = some cms →
    ∃ cms', st'.cmsStore.lookup key = some cms' ∧ cms.Extends cms'

theorem KeepsSketches.of_eq {st st' : Stores Z} (h : st'.cmsStore = st.cmsStore) :
    KeepsSketches st st' := by
  intro key cms hkey
  exact ⟨cms, by rw [h, hkey], .refl cms⟩

theorem KeepsSketches.trans {st₁ st₂ st₃ : Stores Z} (h : KeepsSketches st₁ st₂)
    (h' : KeepsSketches st₂ st₃) : KeepsSketches st₁ st₃ := by
  intro key cms hkey
  obtain ⟨cms₂, hkey₂, hext₂⟩ := h key cms hkey
  obtain ⟨cms₃, hkey₃, hext₃⟩ := h' key cms₂ hkey₂
  exact ⟨cms₃, hkey₃, hext₂.trans hext₃⟩

/-- A sketch is stored under a new key, or in place of an earlier state. -/
theorem keepsSketches_insert {st : Stores Z} {key : Bytes} {cms' : CMS}
    (h : ∀ cms, st.cmsStore.lookup key = some cms → cms.Extends cms') :
    KeepsSketches st { st with cmsStore := st.cmsStore.insert key cms' } := by
  intro key' cms hkey
  by_cases heq : key' = key
  · subst heq
    exact ⟨cms', AList.lookup_insert .., h cms hkey⟩
  · exact ⟨cms, by rw [AList.lookup_insert_ne heq, hkey], .refl cms⟩

variable {st : Stores Z} {args : List Bytes}

theorem keeps_initCMS (key : Bytes) (w d : UInt64) :
    Meets (KeepsSketches st) (initCMS key w d st) := by
  unfold initCMS
  split
  · exact meets_ok (.of_eq rfl)
  · rename_i hnew
    refine meets_bind fun cms _ => meets_ok (keepsSketches_insert fun cms' hkey => absurd ?_ hnew)
    exact AList.lookup_isSome.1 (by rw [hkey]; rfl)

theorem keeps_cmdCMSINITBYDIM : Meets (KeepsSketches st) (cmdCMSINITBYDIM args st) := by
  unfold cmdCMSINITBYDIM
  split
  · split
    · exact meets_ok (.of_eq rfl)
    · split
      · exact meets_ok (.of_eq rfl)
      · exact keeps_initCMS _ _ _
  · exact meets_ok (.of_eq rfl)

theorem keeps_cmdCMSINITBYPROB (deps : Deps) :
    Meets (KeepsSketches st) (cmdCMSINITBYPROB deps args st) := by
  unfold cmdCMSINITBYPROB
  split
  · split
    · exact meets_ok (.of_eq rfl)
    · refine meets_ite (meets_ok (.of_eq rfl)) ?_
      split
      · exact meets_ok (.of_eq rfl)
      · exact meets_ite (meets_ok (.of_eq rfl)) (keeps_initCMS _ _ _)
  · exact meets_ok (.of_eq rfl)

theorem keeps_cmdCMSINCRBY (deps : Deps) :
    Meets (KeepsSketches st) (cmdCMSINCRBY deps args st) := by
  unfold cmdCMSINCRBY
  split
  · refine meets_ite (meets_ok (.of_eq rfl)) ?_
    split
    · exact meets_ok (.of_eq rfl)
    · rename_i cms hkey
      refine meets_bind fun r hloop => meets_ok (keepsSketches_insert fun cms₀ hkey₀ => ?_)
      cases hkey.symm.trans hkey₀
      exact extends_incrLoop hloop
  · exact meets_ok (.of_eq rfl)

theorem executeAndResponse_keepsSketches [ScoredSet Z] (deps : Deps) (env : Env) (cmd : Command)
    (st : Stores Z) : Meets (KeepsSketches st) (executeAndResponse deps env cmd st) :=
  executeAndResponse_meets deps st env cmd (fun _ h => .of_eq h.2)
    (fun reply st' heq => .of_eq (cmdZADD_cmsStore cmd.Args st reply st' heq))
    keeps_cmdCMSINITBYDIM (keeps_cmdCMSINITBYPROB deps) (keeps_cmdCMSINCRBY deps)

theorem keepsSketches_of_serves [ScoredSet Z] {deps : Deps} {st' : Stores Z}
    (h : Relation.ReflTransGen (Serves deps) st st') : KeepsSketches st st' :=
  serves_invariant (fun env cmd st₁ hst reply st₂ hanswer =>
    hst.trans (executeAndResponse_keepsSketches deps env cmd st₁ reply st₂ hanswer)) h (.of_eq rfl)

/-! ## Sketches that can be used -/

/-- There is a sketch with as many counters as `uint64` arithmetic says, and
no increment or query of it fails. -/
def Usable (deps : Deps) (key : Bytes) (st : Stores Z) : Prop :=
  ∃ cms, st.cmsStore.lookup key = some cms ∧
    cms.counter.length = (cms.width * cms.depth).toNat ∧
    ∀ args, (∃ answer, cmdCMSINCRBY deps (key :: args) st = .ok answer) ∧
      ∃ answer, cmdCMSQUERY deps (key :: args) st = .ok answer

theorem returns_incrLoop {cms : CMS} (h : cms.InRange) (hash : ItemHash) (firstItem : Bytes)
    (res : List Bytes) (heven : args.length % 2 = 0) :
    ∃ r, incrLoop hash firstItem args cms res = .ok r := by
  induction args using List.twoStepInduction generalizing cms res with
  | nil => exact ⟨_, rfl⟩
  | singleton => cases heven
  | cons_cons item valueArg args ih _ =>
    unfold incrLoop
    cases parseUint valueArg with
    | none => exact ⟨_, rfl⟩
    | some value =>
      obtain ⟨⟨count, cms₁⟩, hincr⟩ := h.incrBy hash item value
      simp only [List.length_cons] at heven
      simpa only [hincr, bind, Except.bind] using
        ih (h.extends (CMS.incrBy_cases hincr).1) _ (by omega)

theorem returns_queryLoop {cms : CMS} (h : cms.InRange) (hash : ItemHash) (items : List Bytes) :
    ∃ res, queryLoop hash cms items = .ok res := by
  induction items with
  | nil => exact ⟨_, rfl⟩
  | cons item items ih =>
    obtain ⟨count, hcount⟩ := h.count hash item
    obtain ⟨res, hres⟩ := ih
    exact ⟨_, by simp [queryLoop, hcount, hres, bind, Except.bind]; rfl⟩

theorem usable_of_inRange {deps : Deps} {key : Bytes} {cms : CMS}
    (hkey : st.cmsStore.lookup key = some cms)
    (hlen : cms.counter.length = (cms.width * cms.depth).toNat) (h : cms.InRange) :
    Usable deps key st := by
  refine ⟨cms, hkey, hlen, fun args => ⟨?_, ?_⟩⟩
  · match args with
    | [] => exact ⟨_, rfl⟩
    | item :: rest =>
      unfold cmdCMSINCRBY
      by_cases harity : (key :: item :: rest).length < 3 ∨ (key :: item :: rest).length % 2 = 0
      · exact ⟨_, if_pos harity⟩
      · have heven : (item :: rest).length % 2 = 0 := by
          simp only [List.length_cons] at harity ⊢
          omega
        obtain ⟨r, hr⟩ := returns_incrLoop h deps.hash item [] heven
        simp only [if_neg harity, hkey, hr, bind, Except.bind]
        exact ⟨_, rfl⟩
  · match args with
    | [] => exact ⟨_, rfl⟩
    | item :: items =>
      obtain ⟨res, hres⟩ := returns_queryLoop h deps.hash (item :: items)
      simp only [cmdCMSQUERY, hkey, hres, bind, Except.bind]
      exact ⟨_, rfl⟩

/-- A key that can always be queried has all its counters. -/
theorem inRange_of_usable {key : Bytes} {cms : CMS} (hkey : st.cmsStore.lookup key = some cms)
    (h : ∀ deps, Usable deps key st) : cms.InRange := by
  apply CMS.inRange_of_count
  intro hash item
  obtain ⟨_, -, -, hcalls⟩ := h { smallDeps with hash := hash }
  obtain ⟨answer, hquery⟩ := (hcalls [item]).2
  simp only [cmdCMSQUERY, hkey] at hquery
  obtain ⟨res, hres, -⟩ := bind_eq_ok hquery
  obtain ⟨count, hcount, -⟩ := bind_eq_ok hres
  exact ⟨count, hcount⟩

/-- What `CMS.INITBYDIM` has stored when it replies `OK`. -/
theorem lookup_of_initByDim {key widthArg heightArg : Bytes} {st' : Stores Z}
    (h : cmdCMSINITBYDIM [key, widthArg, heightArg] st = .ok (RespOk, st')) :
    ∃ width height, parseInt widthArg = some width ∧ parseInt heightArg = some height ∧
      st'.cmsStore.lookup key = some (CMS.fresh width.toUInt64 height.toUInt64) := by
  have hok : ∀ {text st₁}, (.ok (encode (.error text) false, st₁) : Except Fault (Answer Z)) ≠
      .ok (RespOk, st') := by
    intro text st₁ heq
    have herror := isError_error text
    rw [(Prod.mk.inj (Except.ok.inj heq)).1] at herror
    exact absurd herror (by unfold IsError; decide)
  unfold cmdCMSINITBYDIM at h
  dsimp only at h
  split at h
  · exact absurd h hok
  rename_i width hwidth
  split at h
  · exact absurd h hok
  rename_i height hheight
  unfold initCMS at h
  split at h
  · exact absurd h hok
  obtain ⟨cms, hcms, h⟩ := bind_eq_ok h
  cases h
  refine ⟨width, height, hwidth, hheight, ?_⟩
  rw [AList.lookup_insert]
  obtain ⟨counter, hcounter, hcms⟩ := bind_eq_ok hcms
  cases hcms
  unfold makeWords at hcounter
  split at hcounter
  · cases hcounter
    rfl
  · cases hcounter

/-- As `uint64` the width and the height are such that there are no rows, or
every row has a column and the exact number of counters does not wrap
around. -/
def DimensionsFit (widthArg heightArg : Bytes) : Prop :=
  ∃ width height, parseInt widthArg = some width ∧ parseInt heightArg = some height ∧
    (height.toUInt64 = 0 ∨ 0 < width.toUInt64.toNat ∧
      width.toUInt64.toNat * height.toUInt64.toNat < 2 ^ 64)

/-- After an accepted `CMS.INITBYDIM` and any further commands, no increment
or query of the key fails, exactly if the dimensions fit. -/
theorem sketch_usable_iff [ScoredSet Z] (key widthArg heightArg : Bytes) (st st' : Stores Z)
    (h : cmdCMSINITBYDIM [key, widthArg, heightArg] st = .ok (RespOk, st')) :
    (∀ deps st₂, Relation.ReflTransGen (Serves deps) st' st₂ → Usable deps key st₂) ↔
      DimensionsFit widthArg heightArg := by
  obtain ⟨width, height, hwidth, hheight, hkey⟩ := lookup_of_initByDim h
  let cms := CMS.fresh width.toUInt64 height.toUInt64
  have hlen : cms.counter.length = (cms.width * cms.depth).toNat := List.length_replicate ..
  have hfit : DimensionsFit widthArg heightArg ↔ cms.InRange := by
    rw [CMS.inRange_iff hlen]
    simp [DimensionsFit, hwidth, hheight, cms, CMS.fresh]
  rw [hfit]
  constructor
  · intro husable
    exact inRange_of_usable hkey fun deps => husable deps st' .refl
  · intro hrange deps st₂ hlater
    obtain ⟨cms₂, hkey₂, hext⟩ := keepsSketches_of_serves hlater key _ hkey
    refine usable_of_inRange hkey₂ ?_ (hrange.extends hext)
    rw [hext.grown.length, hext.width, hext.depth]
    exact hlen

/-- `CMS.INITBYDIM k 2 2` -/
theorem sketch_usable_two :
    ∃ st', cmdCMSINITBYDIM [lit "k", lit "2", lit "2"] (Stores.init : Stores ZSet) =
        .ok (RespOk, st') ∧
      ∀ deps st₂, Relation.ReflTransGen (Serves deps) st' st₂ → Usable deps (lit "k") st₂ :=
  ⟨_, rfl, (sketch_usable_iff (lit "k") (lit "2") (lit "2") Stores.init _ rfl).2
    ⟨2, 2, by decide, by decide, .inr (by decide)⟩⟩

/-- The replies of `CMS.INITBYDIM k width height` and then `CMS.QUERY k a`. -/
def initAndQuery (widthArg heightArg : Bytes) : Except Fault Bytes × Except Fault Bytes :=
  let init := cmdCMSINITBYDIM [lit "k", widthArg, heightArg] (Stores.init : Stores ZSet)
  (init.map (·.1), (init >>= fun p => cmdCMSQUERY smallDeps [lit "k", lit "a"] p.2).map (·.1))

/-- A sketch without columns is accepted and divides by zero. With 2³² columns
and 2³² rows there are no counters at all. -/
theorem sketch_faults :
    initAndQuery (lit "0") (lit "1") = (.ok RespOk, .error .divide) ∧
      initAndQuery (lit "4294967296") (lit "4294967296") = (.ok RespOk, .error .index) := by
  decide +kernel

end Commands

end RediGo.Core
