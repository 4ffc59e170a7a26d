import AutoCool.Dispatch
import AutoCool.LR1.Listing
import AutoCool.Main
import AutoCool.Proofs.LR1.ErrorPosition
import AutoCool.Proofs.LR1.Language
import AutoCool.Workload.Measure
import AutoCool.Proofs.Cool.Soundness
import AutoCool.Proofs.Cool.Conservative
import AutoCool.Proofs.Cool.BetweenWalks
import AutoCool.Proofs.Cool.StoredTokens
import AutoCool.Proofs.Cool.Redeclared
import AutoCool.Proofs.Cool.Unbound
import AutoCool.Proofs.Automaton.Paths
import AutoCool.Proofs.LR1.CanonicalTables
import AutoCool.Proofs.LR1.ItemClosure
import AutoCool.Proofs.LR1.Lookaheads
import AutoCool.Proofs.Types.UpperBounds
import AutoCool.Proofs.Cool.Names
import AutoCool.Proofs.Grammar.Exchange
import AutoCool.Proofs.Types.ScopeGrowth
