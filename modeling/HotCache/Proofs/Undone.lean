import HotCache.Proofs.Atomic
import HotCache.Proofs.Service

/-! Additions that fail leave nothing behind. What they could leave is a flag on a free slot; but the program
flags slots in use only, and Nginx marks none without a path, so that every list the program works on comes
from a run of the pool in which no free slot is flagged. -/

namespace HotCache

open CStr Lts

/-- The list that an addition was called on. -/
def Ev.addedTo : Ev → Option ResList
  | .addNormal rl _ => some rl
  | .addCtnt x => some x.rl
  | _ => none

section Undone

variable [L : Layout] {w w' : World} {rl : ResList}

theorem Move.poolRun (hg : Good w) (hm : Move w w') (h : poolSystem.Run FlagsInUse w.rl) :
    poolSystem.Run FlagsInUse w'.rl := by
  cases hm with
  | addMgmt gen url hask =>
    rcases hask.gen with rfl | rfl
    · exact .step (a := .addNormal url) h rfl trivial
    · exact .step (a := .addOrigin url) h rfl trivial
  | addCtnt m url delOk hm =>
    rw [w.addCtnt_rl]
    exact .step (a := .addCtnt m url delOk) h ⟨hm, rfl⟩ trivial
  | ngxDownload ans url lp => exact h
  | flag c f hc hf => exact .step (a := .flag c f) h rfl hc
  | notify c ok hc =>
    rcases notify_cases w c ok with heq | ⟨-, -, heq⟩
    · rw [heq]
      exact h
    · rw [heq]
      cases ok with
      | false => exact h
      | true => exact .step (a := .flag c setNotify) h rfl hc
  | handleCached ctrlLd parsed hctrl hlive hne =>
    exact .step (a := .handleCached ctrlLd parsed) h ⟨(hg.ctrl ctrlLd hctrl).1, hlive, hne, rfl⟩ trivial
  | logged e he => exact h
  | finish r evs lp => exact h

/-- An addition that a move logs is one to the list before the move. -/
theorem Move.addedTo (hm : Move w w') {e : Ev} (he : e ∈ w'.log) (hrl : e.addedTo = some rl) :
    e ∈ w.log ∨ rl = w.rl := by
  have hlast {w₀ : World} {x : Ev} (hin : e ∈ (w₀.logged x).log) : e ∈ w₀.log ∨ e = x := by
    simpa [World.logged] using hin
  cases hm with
  | addMgmt gen url hask => exact .inl he
  | addCtnt m url delOk hm =>
    have hin : e ∈ w.log ∨ e = .addCtnt ⟨w.rl, m, url, delOk⟩ ∨ ∃ c, e = .get c := by
      rcases w.addCtnt_log m url delOk with heq | ⟨c, heq⟩
      · rw [heq, List.mem_append, List.mem_singleton] at he
        exact he.imp_right .inl
      · rw [heq, List.mem_append, List.mem_pair] at he
        exact he.imp_right (Or.imp_right fun hc => ⟨c, hc⟩)
    rcases hin with hin | rfl | ⟨c, rfl⟩
    · exact .inl hin
    · exact .inr (Option.some.inj hrl).symm
    · cases hrl
  | ngxDownload ans url lp =>
    rcases hlast he with he | rfl
    · exact .inl he
    · cases hrl
  | flag c f hc hf => exact .inl he
  | notify c ok hc =>
    rcases notify_cases w c ok with heq | ⟨-, -, heq⟩
    · rw [heq] at he
      exact .inl he
    · rw [heq] at he
      have hadd : e ∈ w.log ∨ e = .add c true ok := by
        cases ok with
        | false => exact hlast he
        | true => exact hlast he
      rcases hadd with hin | rfl
      · exact .inl hin
      · cases hrl
  | handleCached ctrlLd parsed hctrl hlive hne =>
    rcases hlast he with he | rfl
    · exact .inl he
    · cases hrl
  | logged e' he' =>
    rcases hlast he with he | rfl
    · exact .inl he
    · cases e with
      | addNormal rl' url => exact .inr ((Option.some.inj hrl).symm.trans he')
      | addCtnt x => exact absurd he' id
      | _ => cases hrl
  | finish r evs lp =>
    rcases hlast he with he | rfl
    · exact .inl he
    · cases hrl

/-- The lists that the program makes its additions to come from runs of the pool that flag slots in use. -/
structure PoolRuns (w : World) : Prop where
  rl : poolSystem.Run FlagsInUse w.rl
  log : ∀ e ∈ w.log, ∀ rl, e.addedTo = some rl → poolSystem.Run FlagsInUse rl

theorem PoolRuns.move (h : PoolRuns w) (hg : Good w) (hm : Move w w') : PoolRuns w' where
  rl := hm.poolRun hg h.rl
  log := fun e he rl hrl => by
    rcases hm.addedTo he hrl with he | rfl
    · exact h.log e he rl hrl
    · exact h.rl

theorem PoolRuns.moves (h : PoolRuns w) (hg : Good w) (hm : Moves w w') : PoolRuns w' := by
  induction hm with
  | refl => exact h
  | tail hpre hmove ih => exact ih.move (hg.moves hpre) hmove

theorem ldInit_poolRuns : PoolRuns scLdInit := by
  refine ⟨?_, fun e he => ?_⟩
  · have h₁ : poolSystem.Run FlagsInUse (scResInfoAddCtrlLd scResListAllocAndInit YOUKU_WEBSITE_URL).2 :=
      .step (a := .addCtrlLd YOUKU_WEBSITE_URL) .init rfl trivial
    unfold scLdInit
    split
    next heq =>
      rw [heq] at h₁
      exact h₁
    next youku rl heq =>
      rw [heq] at h₁
      have h₂ : poolSystem.Run FlagsInUse (scResInfoAddCtrlLd rl SOHU_WEBSITE_URL).2 :=
        .step (a := .addCtrlLd SOHU_WEBSITE_URL) h₁ rfl trivial
      split
      next heq₂ =>
        rw [heq₂] at h₂
        exact h₂
      next heq₂ =>
        rw [heq₂] at h₂
        exact h₂
  · rw [ldInit_blank.log] at he
    cases he

theorem Reachable.poolRuns (h : Reachable w) : PoolRuns w :=
  ldInit_poolRuns.moves ldInit_blank.sound.toGood h.moves

theorem failuresUndone_run (h : poolSystem.Run FlagsInUse rl) : FailuresUndone rl := by
  obtain ⟨g, hg⟩ := reachable_rep (poolRun_reachable h)
  exact (failuresUndone_iff hg).mpr (freeUnflagged_run h)

/-- In every run of the pool whose flag updates go to slots in use, and so in every list that the running
program has or has called an addition on, an addition that fails leaves the whole list as it was. -/
theorem failed_additions_undone :
    (∀ rl, poolSystem.Run FlagsInUse rl → FailuresUndone rl) ∧
    ∀ w, Reachable w → FailuresUndone w.rl ∧ ∀ e ∈ w.log, ∀ rl, e.addedTo = some rl → FailuresUndone rl := by
  refine ⟨fun rl => failuresUndone_run, fun w h => ?_⟩
  have hruns := h.poolRuns
  exact ⟨failuresUndone_run hruns.rl, fun e he rl hrl => failuresUndone_run (hruns.log e he rl hrl)⟩

end Undone

/-- `onePair` comes from two additions, without a flag update. -/
theorem failed_additions_undone_one_pair : @FailuresUndone sampleLayout onePair := by
  have hrun : (@poolSystem sampleLayout).Run FlagsInUse onePair := by
    refine .step (a := .addCtnt 1023 (bytes "f.youku.com/a.flv") true)
      (.step (a := .addNormal (bytes "f.youku.com/a.flv")) .init rfl trivial) ⟨?_, rfl⟩ trivial
    decide +kernel
  exact (@failed_additions_undone sampleLayout).1 onePair hrun

end HotCache
