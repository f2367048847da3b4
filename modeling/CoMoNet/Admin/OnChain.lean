import CoMoNet.Admin.Verdict
import CoMoNet.Chain.Agreement

/-!
# Administrators of a chain

Nodes with the same main chain see the same accumulators (`chainWorld_agrees`).
-/

namespace CoMoNet

/-- The blocks of the main chain. -/
def ChainState.mainBranch (s : ChainState) : List CBlock :=
  (CBlockIndex.ancestorsOf s.coinsTip).map CBlockIndex.block

/-- The world of `isAdmin` on a chain. -/
def chainWorld (env : Env) (fuel : Nat) (s : ChainState) (dhtget : Nat → Bytes → List Json)
    (wallet : CWallet) : World where
  getTransaction u :=
    match getTransaction env fuel s u (-1) with
    | .ok (some (tx, _)) => some tx
    | _ => none
  dhtget := dhtget
  wallet := wallet

section OnChain

variable {env : Env} {fuel fuel' : Nat} {s s' : ChainState} {u : Bytes}
variable {r : Option (CTransaction × Uint256)}
variable {dhtget : Nat → Bytes → List Json} {wallet : CWallet}

/-- A lookup without a height finds the newest registration. -/
theorem getTransaction_current (h : Synced env s)
    (hr : getTransaction env fuel s u (-1) = .ok r) :
    r.map Prod.fst = registrationOn u s.mainBranch := by
  rw [h.getTransaction_eq hr, if_pos (by decide), ChainState.mainBranch,
    registrationOn_ancestorsOf]
  cases hstack : userStack u s.coinsTip with
  | nil => rfl
  | cons x rest =>
    have hx : x ∈ userStack u s.coinsTip := by rw [hstack]; exact List.mem_cons_self
    have hbest := h.inv.best x (mem_userStack.mp hx).1
    obtain ⟨tx, htx⟩ := Option.isSome_iff_exists.mp (mem_userStack.mp hx).2
    simp [hbest, htx]

/-- Lookups that return give the newest registration on the main chain. -/
theorem chainWorld_getTransaction (h : Synced env s)
    (hr : ∃ r, getTransaction env fuel s u (-1) = .ok r) :
    (chainWorld env fuel s dhtget wallet).getTransaction u = registrationOn u s.mainBranch := by
  obtain ⟨r, hr⟩ := hr
  rw [← getTransaction_current h hr]
  simp only [chainWorld, hr]
  cases r with
  | none => rfl
  | some found => rfl

/-- Nodes with the same main chain and DHT answers, whose lookups return, take over the same
accumulator. -/
theorem chainWorld_agrees (h : Synced env s) (h' : Synced env s')
    (hchain : s'.mainBranch = s.mainBranch)
    (hr : ∀ u, ∃ r, getTransaction env fuel s u (-1) = .ok r)
    (hr' : ∀ u, ∃ r, getTransaction env fuel' s' u (-1) = .ok r) (cache : Nat) :
    updateAccumulator env (chainWorld env fuel' s' dhtget wallet) cache =
      updateAccumulator env (chainWorld env fuel s dhtget wallet) cache := by
  have hget : (chainWorld env fuel' s' dhtget wallet).getTransaction =
      (chainWorld env fuel s dhtget wallet).getTransaction := by
    funext u
    rw [chainWorld_getTransaction h (hr u), chainWorld_getTransaction h' (hr' u), hchain]
  have hworld : chainWorld env fuel' s' dhtget wallet = chainWorld env fuel s dhtget wallet :=
    congrArg (fun f => (⟨f, dhtget, wallet⟩ : World)) hget
  rw [hworld]

end OnChain

end CoMoNet
