/-
RediGo.Core.CommandFrames — what the commands leave as it was.

Of all commands `ZADD` alone changes the sorted sets, and the `CMS.INITBY`
commands and `CMS.INCRBY` alone change the sketches. So a property of these
stores that the four commands keep is kept by `ExecuteAndResponse`
(`executeAndResponse_meets`), and it holds after any commands if it held
before them (`Serves`, `serves_invariant`).
-/
import Mathlib.Logic.Relation
import RediGo.Core.Commands

namespace RediGo.Core

open RediGo.Go RediGo.HashTable RediGo.Probabilistic

variable {Z : Type}

/-- Whatever the command answers, `R` holds of the stores after it. -/
def Meets (R : Stores Z → Prop) (r : Except Fault (Answer Z)) : Prop :=
  ∀ reply st', r = .ok (reply, st') → R st'

section Rules

variable {R : Stores Z → Prop}

theorem meets_ok {st' : Stores Z} {reply : Bytes} (h : R st') : Meets R (.ok (reply, st')) := by
  rintro _ _ ⟨⟩
  exact h

theorem meets_bind {α : Type} {x : Except Fault α} {f : α → Except Fault (Answer Z)}
    (h : ∀ a, x = .ok a → Meets R (f a)) : Meets R (x >>= f) := by
  intro reply st' heq
  obtain ⟨a, hx, heq⟩ := bind_eq_ok heq
  exact h a hx reply st' heq

theorem meets_ite {c : Prop} [Decidable c] {r r' : Except Fault (Answer Z)} (h : Meets R r)
    (h' : Meets R r') : Meets R (if c then r else r') := by
  split
  · exact h
  · exact h'

end Rules

/-! ## Sorted sets and sketches -/

variable (deps : Deps) (args : List Bytes) (st : Stores Z)

theorem initCMS_zsetStore (key : Bytes) (w d : UInt64) :
    Meets (·.zsetStore = st.zsetStore) (initCMS key w d st) := by
  unfold initCMS
  exact meets_ite (meets_ok rfl) (meets_bind fun _ _ => meets_ok rfl)

theorem cmdCMSINITBYDIM_zsetStore :
    Meets (·.zsetStore = st.zsetStore) (cmdCMSINITBYDIM args st) := by
  unfold cmdCMSINITBYDIM
  split
  · split
    · exact meets_ok rfl
    · split
      · exact meets_ok rfl
      · exact initCMS_zsetStore st _ _ _
  · exact meets_ok rfl

theorem cmdCMSINITBYPROB_zsetStore :
    Meets (·.zsetStore = st.zsetStore) (cmdCMSINITBYPROB deps args st) := by
  unfold cmdCMSINITBYPROB
  split
  · split
    · exact meets_ok rfl
    · refine meets_ite (meets_ok rfl) ?_
      split
      · exact meets_ok rfl
      · exact meets_ite (meets_ok rfl) (initCMS_zsetStore st _ _ _)
  · exact meets_ok rfl

theorem cmdCMSINCRBY_zsetStore :
    Meets (·.zsetStore = st.zsetStore) (cmdCMSINCRBY deps args st) := by
  unfold cmdCMSINCRBY
  split
  · refine meets_ite (meets_ok rfl) ?_
    split
    · exact meets_ok rfl
    · exact meets_bind fun _ _ => meets_ok rfl
  · exact meets_ok rfl

section Dispatch

variable [ScoredSet Z]

theorem cmdZADD_cmsStore : Meets (·.cmsStore = st.cmsStore) (cmdZADD args st) := by
  unfold cmdZADD
  split
  · exact meets_ite (meets_ok rfl)
      (meets_ite (meets_ok rfl) (meets_bind fun _ _ => meets_ok rfl))
  · exact meets_ok rfl

/-- The stores agree in their sorted sets and in their sketches. -/
def SameSets (st st' : Stores Z) : Prop :=
  st'.zsetStore = st.zsetStore ∧ st'.cmsStore = st.cmsStore

/-- The commands that read these stores or work on others. -/
theorem sameSets_others (env : Env) :
    Meets (SameSets st) (cmdZSCORE args st) ∧ Meets (SameSets st) (cmdZRANK args st) ∧
      Meets (SameSets st) (cmdSADD args st) ∧ Meets (SameSets st) (cmdSREM args st) ∧
      Meets (SameSets st) (cmdSMEMBERS env args st) ∧
      Meets (SameSets st) (cmdSISMEMBER args st) ∧ Meets (SameSets st) (cmdCMSQUERY deps args st) ∧
      Meets (SameSets st) (cmdINFO env args st) := by
  have hsame : ∀ {reply}, Meets (SameSets st) (.ok (reply, st)) := meets_ok ⟨rfl, rfl⟩
  refine ⟨?_, ?_, ?_, ?_, ?_, ?_, ?_, ?_⟩
  · unfold cmdZSCORE
    split
    · split
      · exact hsame
      · split <;> exact hsame
    · exact hsame
  · unfold cmdZRANK
    split
    · split
      · exact hsame
      · exact meets_bind fun _ _ => hsame
    · exact hsame
  · unfold cmdSADD changeSet
    split
    · exact meets_ok ⟨rfl, rfl⟩
    · exact hsame
  · unfold cmdSREM changeSet
    split
    · exact meets_ok ⟨rfl, rfl⟩
    · exact hsame
  · unfold cmdSMEMBERS
    split
    · split <;> exact hsame
    · exact hsame
  · unfold cmdSISMEMBER
    split
    · split <;> exact hsame
    · exact hsame
  · unfold cmdCMSQUERY
    split
    · split
      · exact hsame
      · exact meets_bind fun _ _ => hsame
    · exact hsame
  · unfold cmdINFO
    split
    · exact hsame
    · split <;> exact hsame
    · exact hsame

/-- What the commands on sorted sets and sketches keep, all commands keep. -/
theorem executeAndResponse_meets {R : Stores Z → Prop} (env : Env) (cmd : Command)
    (hsame : ∀ st', SameSets st st' → R st') (hzadd : Meets R (cmdZADD cmd.Args st))
    (hdim : Meets R (cmdCMSINITBYDIM cmd.Args st))
    (hprob : Meets R (cmdCMSINITBYPROB deps cmd.Args st))
    (hincr : Meets R (cmdCMSINCRBY deps cmd.Args st)) :
    Meets R (executeAndResponse deps env cmd st) := by
  have hlift : ∀ {r}, Meets (SameSets st) r → Meets R r :=
    fun h reply st' heq => hsame st' (h reply st' heq)
  have hok : ∀ {reply st'}, SameSets st st' → Meets R (.ok (reply, st')) :=
    fun h => meets_ok (hsame _ h)
  obtain ⟨hzscore, hzrank, hsadd, hsrem, hsmembers, hsismember, hquery, hinfo⟩ :=
    sameSets_others deps cmd.Args st env
  unfold executeAndResponse
  refine meets_ite (hok ⟨rfl, rfl⟩) ?_
  refine meets_ite (hok ⟨rfl, rfl⟩) (meets_ite (hok ⟨rfl, rfl⟩) (meets_ite (hok ⟨rfl, rfl⟩) ?_))
  refine meets_ite hzadd (meets_ite (hlift hzscore) (meets_ite (hlift hzrank) ?_))
  refine meets_ite (hlift hsadd) (meets_ite (hlift hsrem) ?_)
  refine meets_ite (hlift hsmembers) (meets_ite (hlift hsismember) ?_)
  refine meets_ite hdim (meets_ite hprob (meets_ite hincr (meets_ite (hlift hquery) ?_)))
  exact meets_ite (hlift hinfo) (meets_ite (hok ⟨rfl, rfl⟩) (hok ⟨rfl, rfl⟩))

/-! ## Runs of the server -/

/-- The server has answered one more command. -/
def Serves (st st' : Stores Z) : Prop :=
  ∃ env cmd reply, executeAndResponse deps env cmd st = .ok (reply, st')

theorem serves_invariant {P : Stores Z → Prop} {deps : Deps}
    (hstep : ∀ env cmd st, P st → Meets P (executeAndResponse deps env cmd st)) {st st' : Stores Z}
    (h : Relation.ReflTransGen (Serves deps) st st') (hP : P st) : P st' := by
  induction h with
  | refl => exact hP
  | tail _ hserves ih =>
    obtain ⟨env, cmd, reply, hanswer⟩ := hserves
    exact hstep env cmd _ ih reply _ hanswer

end Dispatch

end RediGo.Core
