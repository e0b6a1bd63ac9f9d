import HotCache.Spec.Client

/-! The program as it runs: requests of the Snooping module, the passes of
`sc_res_list_process_thread`, files found by the loader and downloads that Nginx ends. -/

namespace HotCache

open CStr

variable [Layout]

/-- The steps that no request asks for. -/
inductive OwnStep : World → World → Prop
  | processFunc (w ans fuel p) (h : scResListProcessMgmt ans fuel { w := w } = some p) : OwnStep w p.w
  | load (w fpath ans) : OwnStep w (scLdFileProcess w fpath ans)
  | finish (w ans r evs lp) (hr : Receiving r lp) (hrl : r.rl = w.rl) (hlp : lp ∈ w.running)
      (hfin : (runUpstream ans r evs).connected = false) :
      OwnStep w (World.logged { w with rl := (runUpstream ans r evs).rl, running := w.running.erase lp }
        (.finish r evs w.running lp))

/-- The steps of the program when `request` is what its requests can do. -/
inductive ProgramStep (request : World → World → Prop) : World → World → Prop
  | request (w w') (h : request w w') : ProgramStep request w w'
  | own (w w') (h : OwnStep w w') : ProgramStep request w w'

/-- What a request of the Snooping module can do, with every answer that the code distinguishes. -/
inductive SpRequest : World → World → Prop
  | parse (w reqUrl ans) : SpRequest w (scSnoopingDoParse w reqUrl ans).2
  | down (w url ans) : SpRequest w (scSnoopingDoDown w url ans).2

def ServeStep : World → World → Prop := ProgramStep SpRequest

def ServesTo (w w' : World) : Prop := Relation.ReflTransGen ServeStep w w'

def Served (w : World) : Prop := ServesTo scLdInit w

/-- The atomic steps of the system: those of the program, and single calls of two functions that the
program only calls inside larger steps. -/
inductive Step : World → World → Prop
  | serve (w w') (h : ServeStep w w') : Step w w'
  | processCtnt (w ans fuel mgmt p) (hm : w.rl.LiveMgmt mgmt)
      (h : scResListProcessCtnt ans fuel { w := w } mgmt = some p) : Step w p.w
  | handleCached (w ctrlLd parsed) (hctrl : w.youkuCtrlLd = some ctrlLd ∨ w.sohuCtrlLd = some ctrlLd)
      (hlive : w.rl.LiveCtnt parsed) (hne : (w.rl.ctnt parsed).parent ≠ some ctrlLd) :
      Step w (w.handleCached (some ctrlLd) parsed).2

def Reachable (w : World) : Prop := Relation.ReflTransGen Step scLdInit w

end HotCache
