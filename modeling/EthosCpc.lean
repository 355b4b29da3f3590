import EthosCpc.Ethos.ScopesSpec
import EthosCpc.Cpc.BooleansSpec
import EthosCpc.Cpc.ArithMultSpec
import EthosCpc.Cpc.ReIncludesSpec
import EthosCpc.Cpc.ReUnfoldSpec
import EthosCpc.Cpc.ContainsRewritesSpec
import EthosCpc.Cpc.SetsSpec
import EthosCpc.Cpc.ArithRewritesSpec
import EthosCpc.Cvc5.BoolProofCheckerSpec
import EthosCpc.Cvc5.ArithProofCheckerSpec
import EthosCpc.Cvc5.LazyProofChainSpec
import EthosCpc.Cvc5.WordEqCheckerSpec
import EthosCpc.Cvc5.RegExpEntailSpec
import EthosCpc.Cvc5.CDProofSpec
import EthosCpc.Cvc5.ArithEntailRuns
import EthosCpc.Cvc5.AciNormCpc
import EthosCpc.Cvc5.BitblastTableSpec
import EthosCpc.Cvc5.CnfStreamSpec
import EthosCpc.Cvc5.EvaluatorSpec
import EthosCpc.Cvc5.IntToBVSpec
import EthosCpc.Cvc5.SubstitutionsSpec
import EthosCpc.Cvc5.IntBlasterSpec
import EthosCpc.Cvc5.EoPrinterSpec
import EthosCpc.Cvc5.RewriteProofRuleSpec
import EthosCpc.Cpc.CongruenceRunSpec
import EthosCpc.Cvc5.ProofNodeAlgorithmSpec
import EthosCpc.Cvc5.ProofNodeManagerSpec
import EthosCpc.Cvc5.BvGaussSpec
import EthosCpc.Cvc5.MatrixCopySpec
import EthosCpc.Cvc5.DTypeCardinalitySpec
import EthosCpc.Ethos.Extract
import EthosCpc.Ethos.Match
import EthosCpc.Cvc5.Cardinality
import EthosCpc.Cvc5.ApproximateConstant
import EthosCpc.Cvc5.BinaryHeap
import EthosCpc.Cpc.ArithMultCalls
import EthosCpc.Cvc5.TransitivityChain
import EthosCpc.Cvc5.SatProofManager
import EthosCpc.Ethos.Hash
import EthosCpc.Ethos.StringLit
import EthosCpc.Ethos.ApplyAttr
import EthosCpc.Cpc.Refutations
import EthosCpc.Ethos.PrintedProofs
